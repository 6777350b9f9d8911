import SchemaSnapshot.Http.Head
import SchemaSnapshot.Text.Hex

namespace SchemaSnapshot.Http

inductive Framing where
  | none
  | length (n : Nat)
  | chunked
  | untilClose
  deriving DecidableEq, Repr

inductive ChunkError where
  | missingSize
  | size
  | sizeBlank
  | extensionFeed
  | extensionTooLong
  | sizeFeed
  | bodyReturn
  | bodyFeed
  | trailerFeed
  | trailersTooLong
  | tooManyTrailers
  /-- The lines after the last chunk are no fields, or more fields than lines. -/
  | trailer (error : Head.Error)
  | endFeed
  | overflow
  deriving DecidableEq, Repr

inductive Body.Error where
  /-- The connection was closed before the declared length, or the length of a chunk, was
  reached. -/
  | shortOfLength
  /-- The connection was closed between chunks. -/
  | shortOfChunk
  | chunk (error : ChunkError)
  deriving DecidableEq, Repr

namespace Head

def isVisible (b : UInt8) : Bool :=
  isBlank b || (0x21 ≤ b && b ≤ 0x7E)

def comma : UInt8 := 0x2C

def isChunked (values : List (List UInt8)) : Bool :=
  match values.getLast? with
  | some v =>
    v.all isVisible &&
      (Text.trim isBlank ((Text.split (· = comma) v).getLast?.getD [])).map lower =
        octets "chunked"
  | none => false

def number? (bs : List UInt8) : Option Nat :=
  if bs = [] ∨ !bs.all isDigit then none
  else
    let n := bs.foldl (fun n b => n * 10 + (b.toNat - 0x30)) 0
    if n < UInt64.size then some n else none

/-- The one number that all of these are. -/
def agreed? : List Nat → Option Nat
  | [] => none
  | n :: ns => if ns.all (· = n) then some n else none

def length? (values : List (List UInt8)) : Option Nat := do
  if values.all (·.all isVisible) then
    let items := values.flatMap (Text.split (· = comma))
    agreed? (← items.mapM fun item => number? (Text.trim isBlank item))
  else none

def maxLength : Nat := UInt64.size - 3

def framing (h : Head) : Except Head.Error Framing :=
  if h.status.isBodiless then .ok .none
  else
    match h.values "transfer-encoding", h.values "content-length" with
    | [], [] => .ok .untilClose
    | [], lengths =>
      match length? lengths with
      | some n => if n ≤ maxLength then .ok (.length n) else .error .tooLarge
      | none => .error .contentLength
    | encodings, _ =>
      if h.version = .http10 then .error .transferEncoding
      else if isChunked encodings then .ok .chunked
      else .ok .untilClose

end Head

namespace Chunks

open Head (cr lf isBlank)

/-- What has come after the last chunk, from back to front, and the number of lines in it. -/
structure Trailer where
  text : List UInt8 := []
  lines : Nat := 0
  deriving DecidableEq, Repr

inductive State where
  | start
  | size (n : Nat)
  | sizeBlank (n : Nat)
  | extension (n : Nat)
  | sizeFeed (n : Nat)
  | data (left : Nat)
  | dataReturn
  | dataFeed
  | lineStart (t : Trailer)
  | line (t : Trailer)
  | lineFeed (t : Trailer)
  | endFeed (t : Trailer)
  deriving DecidableEq, Repr

/-- All extensions, and in the same way all that comes after the last chunk, may take this many
octets. -/
def maxExtra : Nat := 16383

/-- A body in the making; its octets are kept from back to front. -/
structure Draft where
  state : State := .start
  data : List UInt8 := []
  extensions : Nat := 0
  deriving DecidableEq, Repr

inductive Step where
  | more (d : Draft)
  | done
  | failed (error : ChunkError)
  deriving DecidableEq, Repr

def afterSize (d : Draft) (n : Nat) (b : UInt8) (error : ChunkError) : Step :=
  if isBlank b then .more { d with state := .sizeBlank n }
  else if b = 0x3B then .more { d with state := .extension n }
  else if b = cr then .more { d with state := .sizeFeed n }
  else .failed error

def sized (d : Draft) (n : Nat) : Draft :=
  { d with state := if n = 0 then .lineStart {} else .data n }

def Draft.trail (d : Draft) (t : Trailer) (b : UInt8) (state : Trailer → State) : Step :=
  if t.text.length < maxExtra then
    .more { d with state := state { t with text := b :: t.text } }
  else .failed .trailersTooLong

/-- As many fields as there were lines can stand after the last chunk. A line feed alone ends a
field, though it ends no line. -/
def Trailer.finish (t : Trailer) : Step :=
  if t.lines < Head.maxFields then
    match Head.readFrom (.line { room := t.lines }) t.text.reverse with
    | .ok _ => .done
    | .error e => .failed (.trailer e)
  else .failed .tooManyTrailers

def Draft.step (d : Draft) (b : UInt8) : Step :=
  match d.state with
  | .start =>
    match Hex.value? b.toNat with
    | some n => .more { d with state := .size n }
    | none => .failed .missingSize
  | .size n =>
    match Hex.value? b.toNat with
    | some x =>
      if n * 16 + x < UInt64.size then .more { d with state := .size (n * 16 + x) }
      else .failed .overflow
    | none => afterSize d n b .size
  | .sizeBlank n => afterSize d n b .sizeBlank
  | .extension n =>
    if b = cr then .more { d with state := .sizeFeed n }
    else if b = lf then .failed .extensionFeed
    else if d.extensions < maxExtra then .more { d with extensions := d.extensions + 1 }
    else .failed .extensionTooLong
  | .sizeFeed n => if b = lf then .more (sized d n) else .failed .sizeFeed
  | .data left =>
    .more { d with
      state := if left ≤ 1 then .dataReturn else .data (left - 1)
      data := b :: d.data }
  | .dataReturn => if b = cr then .more { d with state := .dataFeed } else .failed .bodyReturn
  | .dataFeed => if b = lf then .more { d with state := .start } else .failed .bodyFeed
  | .lineStart t => d.trail t b (if b = cr then .endFeed else .line)
  | .line t => d.trail t b (if b = cr then .lineFeed else .line)
  | .lineFeed t =>
    if b = lf then
      if t.lines < Head.maxFields then d.trail { t with lines := t.lines + 1 } b .lineStart
      else .failed .tooManyTrailers
    else .failed .trailerFeed
  | .endFeed t =>
    if b = lf then
      if t.text.length < maxExtra then { t with text := b :: t.text }.finish
      else .failed .trailersTooLong
    else .failed .endFeed

def readFrom (d : Draft) : List UInt8 → Except Body.Error (List UInt8)
  | [] =>
    match d.state with
    | .data _ => .error .shortOfLength
    | _ => .error .shortOfChunk
  | b :: bs =>
    match d.step b with
    | .more e => readFrom e bs
    | .done => .ok d.data.reverse
    | .failed e => .error (.chunk e)

def read (bs : List UInt8) : Except Body.Error (List UInt8) :=
  readFrom {} bs

end Chunks

def Framing.read (f : Framing) (bs : List UInt8) : Except Body.Error (List UInt8) :=
  match f with
  | .none => .ok []
  | .length n => if n ≤ bs.length then .ok (bs.take n) else .error .shortOfLength
  | .chunked => Chunks.read bs
  | .untilClose => .ok bs

structure Response where
  head : Head
  body : Except Body.Error (List UInt8)

namespace Response

def read (bs : List UInt8) : Except Head.Error Response := do
  let (head, rest) ← Head.read bs
  return ⟨head, (← head.framing).read rest⟩

def status (r : Response) : Status :=
  r.head.status

/-- More octets can still change the answer. -/
def needsMore (bs : List UInt8) : Bool :=
  match Head.read bs with
  | .error e => e = .unfinished
  | .ok (head, rest) =>
    match head.framing with
    | .error _ => false
    | .ok .none => false
    | .ok .untilClose => true
    | .ok framing =>
      match framing.read rest with
      | .error .shortOfLength | .error .shortOfChunk => true
      | _ => false

end Response

namespace ChunkError

def message : ChunkError → String
  | .missingSize => "Invalid chunk size line: missing size digit"
  | .size => "Invalid chunk size line: Invalid Size"
  | .sizeBlank => "Invalid chunk size linear white space"
  | .extensionFeed => "invalid chunk extension contains newline"
  | .extensionTooLong => "chunk extensions over limit"
  | .sizeFeed => "Invalid chunk size LF"
  | .bodyReturn => "Invalid chunk body CR"
  | .bodyFeed => "Invalid chunk body LF"
  | .trailerFeed => "Invalid trailer end LF"
  | .trailersTooLong => "chunk trailers bytes over limit"
  | .tooManyTrailers => "chunk trailers count overflow"
  | .trailer (.field .name) => "invalid header name"
  | .trailer (.field .value) => "invalid header value"
  | .trailer (.field .newLine) => "invalid new line"
  | .trailer .tooLarge => "too many headers"
  | .trailer _ => "Partial header"
  | .endFeed => "Invalid chunk end LF"
  | .overflow => "invalid chunk size: overflow"

def kind : ChunkError → String
  | .extensionFeed | .extensionTooLong | .trailersTooLong | .tooManyTrailers | .overflow =>
    "InvalidData"
  | _ => "InvalidInput"

def inspect : ChunkError → String
  | .trailer (.field .name) => "HeaderName"
  | .trailer (.field .value) => "HeaderValue"
  | .trailer (.field .newLine) => "NewLine"
  | .trailer .tooLarge => "TooManyHeaders"
  | e => "\"" ++ e.message ++ "\""

end ChunkError

namespace Body.Error

def message : Body.Error → String
  | .shortOfLength => "end of file before message length reached"
  | .shortOfChunk => "unexpected EOF during chunk size line"
  | .chunk e => e.message

def inspect : Body.Error → String
  | .shortOfLength => "Custom \x7b kind: UnexpectedEof, error: IncompleteBody \x7d"
  | .shortOfChunk =>
    "Custom \x7b kind: UnexpectedEof, error: \"unexpected EOF during chunk size line\" \x7d"
  | .chunk e => "Custom \x7b kind: " ++ e.kind ++ ", error: " ++ e.inspect ++ " \x7d"

end Body.Error

end SchemaSnapshot.Http
