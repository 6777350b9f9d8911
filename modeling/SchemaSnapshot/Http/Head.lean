import SchemaSnapshot.Http.Status
import SchemaSnapshot.Text.Split
import SchemaSnapshot.Text.Utf8

namespace SchemaSnapshot.Http

inductive Version where
  | http10
  | http11
  deriving DecidableEq, Repr

/-- A header field: its name in small letters and its value without the blanks around it. -/
structure Field where
  name : List UInt8
  value : List UInt8
  deriving DecidableEq, Repr

structure Head where
  version : Version
  status : Status
  fields : List Field
  deriving DecidableEq, Repr

/-- The part of a field, or of the line end after the fields, that is wrong. -/
inductive Field.Error where
  | name
  | value
  | newLine
  deriving DecidableEq, Repr

inductive Head.Error where
  /-- The connection was closed before the head was complete. -/
  | unfinished
  | version
  | status
  | field (error : Field.Error)
  | contentLength
  | transferEncoding
  | tooLarge
  deriving DecidableEq, Repr

namespace Head

def maxFields : Nat := 100

/-- The fields so far; `room` more of them fit. -/
structure Draft where
  version : Version := .http11
  status : Nat := 0
  fields : List Field := []
  room : Nat := maxFields
  deriving DecidableEq, Repr

/-- What the next octet belongs to. Names and values are kept from back to front. -/
inductive State where
  /-- Empty lines before the status line. -/
  | start
  | startFeed
  /-- The octets of `HTTP/1.` that are still to come. -/
  | protocol (rest : List UInt8)
  | minor
  | space (d : Draft)
  | code (d : Draft) (digits : Nat)
  | afterCode (d : Draft)
  | reason (d : Draft)
  | statusFeed (d : Draft)
  | line (d : Draft)
  | name (d : Draft) (name : List UInt8)
  | value (d : Draft) (name value : List UInt8)
  | valueFeed (d : Draft) (name value : List UInt8)
  | endFeed (d : Draft)
  deriving DecidableEq, Repr

inductive Step where
  | more (state : State)
  | done (d : Draft)
  | failed (error : Head.Error)
  deriving DecidableEq, Repr

def cr : UInt8 := 0x0D
def lf : UInt8 := 0x0A
def isBlank (b : UInt8) : Bool := b = 0x20 || b = 0x09

def isDigit (b : UInt8) : Bool := 0x30 ≤ b && b ≤ 0x39

def isToken (b : UInt8) : Bool :=
  isDigit b || (0x41 ≤ b && b ≤ 0x5A) || (0x61 ≤ b && b ≤ 0x7A) ||
    b ∈ octets "!#$%&'*+-.^_`|~"

def isText (b : UInt8) : Bool :=
  isBlank b || (0x21 ≤ b && b ≤ 0x7E) || 0x80 ≤ b

def lower (b : UInt8) : UInt8 :=
  if 0x41 ≤ b ∧ b ≤ 0x5A then b + 0x20 else b

def Draft.addField (d : Draft) (name value : List UInt8) : Step :=
  match d.room with
  | 0 => .failed .tooLarge
  | room + 1 =>
    .more (.line { d with
      fields := d.fields ++ [⟨name.reverse.map lower, (value.dropWhile isBlank).reverse⟩]
      room := room })

def protocolMark : List UInt8 := octets "HTTP/1."

def expectProtocol (b : UInt8) : List UInt8 → Step
  | [] => .failed .version
  | c :: r => if b = c then .more (if r = [] then .minor else .protocol r) else .failed .version

def State.step (s : State) (b : UInt8) : Step :=
  match s with
  | .start =>
    if b = cr then .more .startFeed
    else if b = lf then .more .start
    else expectProtocol b protocolMark
  | .startFeed => if b = lf then .more .start else .failed (.field .newLine)
  | .protocol rest => expectProtocol b rest
  | .minor =>
    if b = 0x30 then .more (.space { version := .http10 })
    else if b = 0x31 then .more (.space { version := .http11 })
    else .failed .version
  | .space d => if b = 0x20 then .more (.code d 3) else .failed .version
  | .code d digits =>
    if isDigit b then
      let d := { d with status := d.status * 10 + (b.toNat - 0x30) }
      .more (if digits ≤ 1 then .afterCode d else .code d (digits - 1))
    else .failed .status
  | .afterCode d =>
    if b = 0x20 then .more (.reason d)
    else if b = cr then .more (.statusFeed d)
    else if b = lf then .more (.line d)
    else .failed .status
  | .reason d =>
    if b = cr then .more (.statusFeed d)
    else if b = lf then .more (.line d)
    else if isText b then .more (.reason d)
    else .failed .status
  | .statusFeed d => if b = lf then .more (.line d) else .failed .status
  | .line d =>
    if b = cr then .more (.endFeed d)
    else if b = lf then .done d
    else if isToken b then .more (.name d [b])
    else .failed (.field .name)
  | .name d n =>
    if b = 0x3A then .more (.value d n [])
    else if isToken b then .more (.name d (b :: n))
    else .failed (.field .name)
  | .value d n v =>
    if b = cr then .more (.valueFeed d n v)
    else if b = lf then d.addField n v
    else if isText b then .more (.value d n (if v = [] ∧ isBlank b then [] else b :: v))
    else .failed (.field .value)
  | .valueFeed d n v => if b = lf then d.addField n v else .failed (.field .value)
  | .endFeed d => if b = lf then .done d else .failed (.field .newLine)

def readFrom : State → List UInt8 → Except Head.Error (Draft × List UInt8)
  | _, [] => .error .unfinished
  | s, b :: bs =>
    match s.step b with
    | .more t => readFrom t bs
    | .done d => .ok (d, bs)
    | .failed e => .error e

/-- Names of fields are shorter than this. -/
def maxNameLength : Nat := 65536

def Draft.toHead (d : Draft) : Except Head.Error Head :=
  if d.status < 100 then .error .status
  else if d.fields.any (maxNameLength ≤ ·.name.length) then .error .tooLarge
  else .ok ⟨d.version, d.status, d.fields⟩

/-- A head is read from this many octets at most. -/
def maxOctets : Nat := 8192 + 4096 * maxFields

def readFirst (bs : List UInt8) : Except Head.Error (Draft × List UInt8) :=
  match readFrom .start (bs.take maxOctets) with
  | .ok (d, rest) => .ok (d, rest ++ bs.drop maxOctets)
  | .error .unfinished => .error (if maxOctets ≤ bs.length then .tooLarge else .unfinished)
  | .error e => .error e

theorem length_lt_of_readFrom {s : State} {bs rest : List UInt8} {d : Draft}
    (h : readFrom s bs = .ok (d, rest)) : rest.length < bs.length := by
  induction bs generalizing s with
  | nil => cases h
  | cons b bs ih =>
    unfold readFrom at h
    split at h
    · exact Nat.lt_succ_of_lt (ih h)
    · cases h
      exact Nat.lt_succ_self _
    · cases h

theorem length_lt_of_readFirst {bs rest : List UInt8} {d : Draft}
    (h : readFirst bs = .ok (d, rest)) : rest.length < bs.length := by
  unfold readFirst at h
  split at h
  · next hr =>
    cases h
    have hl := length_lt_of_readFrom hr
    rw [List.length_take] at hl
    rw [List.length_append, List.length_drop]
    omega
  · cases h
  · cases h

/-- The head of the final answer; interim ones before it are skipped. -/
def read (bs : List UInt8) : Except Head.Error (Head × List UInt8) :=
  match h : readFirst bs with
  | .error e => .error e
  | .ok (d, rest) =>
    match d.toHead with
    | .error e => .error e
    | .ok head =>
      if head.status.isInterim then
        have := length_lt_of_readFirst h
        read rest
      else .ok (head, rest)
termination_by bs.length

def values (h : Head) (name : String) : List (List UInt8) :=
  (h.fields.filter (·.name = octets name)).map Field.value

end Head

namespace Head.Error

def message : Head.Error → String
  | .unfinished => "connection closed before message completed"
  | .version => "invalid HTTP version parsed"
  | .status => "invalid HTTP status-code parsed"
  | .field _ => "invalid HTTP header parsed"
  | .contentLength => "invalid content-length parsed"
  | .transferEncoding => "unexpected transfer-encoding parsed"
  | .tooLarge => "message head is too large"

def name : Head.Error → String
  | .unfinished => "IncompleteMessage"
  | .version => "Parse(Version)"
  | .status => "Parse(Status)"
  | .field _ => "Parse(Header(Token))"
  | .contentLength => "Parse(Header(ContentLengthInvalid))"
  | .transferEncoding => "Parse(Header(TransferEncodingUnexpected))"
  | .tooLarge => "Parse(TooLarge)"

end Head.Error

end SchemaSnapshot.Http
