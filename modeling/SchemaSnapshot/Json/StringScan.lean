import SchemaSnapshot.Json.Fault
import SchemaSnapshot.Text.Hex

namespace SchemaSnapshot.Json

def hexNumber? (digits : List UInt8) : Option Nat :=
  digits.foldlM (fun n b => (Hex.value? b.toNat).map (n * 16 + ·)) 0

def isHighSurrogate (n : Nat) : Bool := 0xD800 ≤ n && n ≤ 0xDBFF

def isLowSurrogate (n : Nat) : Bool := 0xDC00 ≤ n && n ≤ 0xDFFF

def surrogatePair (high low : Nat) : Char :=
  Char.ofNat (0x10000 + (high - 0xD800) * 0x400 + (low - 0xDC00))

def shortEscape? (b : UInt8) : Option Char :=
  match Char.ofUInt8 b with
  | '"' => some '"'
  | '\\' => some '\\'
  | '/' => some '/'
  | 'b' => some '\x08'
  | 'f' => some '\x0c'
  | 'n' => some '\n'
  | 'r' => some '\r'
  | 't' => some '\t'
  | _ => none

inductive StringMode where
  | plain
  | escape
  /-- Among the four digits of an escape, after the escape of a high surrogate if there was one;
  the digits stand last first. -/
  | digits (high : Option Nat) (seen : List UInt8)
  | pairMark (high : Nat)
  | pairLetter (high : Nat)
  deriving DecidableEq, Repr

/-- The decoded octets so far stand in `content`, the last one first. -/
structure StringScan where
  mode : StringMode
  content : List UInt8
  deriving DecidableEq, Repr

namespace StringScan

def opened : StringScan := ⟨.plain, []⟩

inductive Step where
  | more (s : StringScan)
  | closed (content : List UInt8)
  | failed (cause : Cause)
  deriving DecidableEq, Repr

def push (s : StringScan) (c : Char) : Step :=
  .more ⟨.plain, (String.utf8EncodeChar c).reverse ++ s.content⟩

def unit (s : StringScan) (high : Option Nat) (n : Nat) : Step :=
  match high with
  | some h => if isLowSurrogate n then s.push (surrogatePair h n) else .failed .loneSurrogate
  | none =>
    if isLowSurrogate n then .failed .loneSurrogate
    else if isHighSurrogate n then .more ⟨.pairMark n, s.content⟩
    else s.push (Char.ofNat n)

def step (s : StringScan) (b : UInt8) : Step :=
  match s.mode with
  | .plain =>
    if b = 0x22 then .closed s.content.reverse
    else if b = 0x5C then .more ⟨.escape, s.content⟩
    else if b < 0x20 then .failed .controlCharacter
    else .more ⟨.plain, b :: s.content⟩
  | .escape =>
    if b = 0x75 then .more ⟨.digits none [], s.content⟩
    else match shortEscape? b with
      | some c => s.push c
      | none => .failed .invalidEscape
  | .digits high seen =>
    if seen.length < 3 then .more ⟨.digits high (b :: seen), s.content⟩
    else match hexNumber? (b :: seen).reverse with
      | some n => s.unit high n
      | none => .failed .invalidEscape
  | .pairMark high =>
    if b = 0x5C then .more ⟨.pairLetter high, s.content⟩ else .failed .endOfHexEscape
  | .pairLetter high =>
    if b = 0x75 then .more ⟨.digits (some high) [], s.content⟩ else .failed .endOfHexEscape

/-- The text of a closed literal; the fault lies after its longest part in UTF-8. -/
def decode (content : List UInt8) : Except Fault String :=
  match Utf8.decode? content with
  | some cs => .ok (String.ofList cs)
  | none => .error (.here .invalidCodePoint (content.length - Utf8.validLength content))

end StringScan

end SchemaSnapshot.Json
