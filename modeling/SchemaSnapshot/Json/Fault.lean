import SchemaSnapshot.IoError
import SchemaSnapshot.Text.Utf8

namespace SchemaSnapshot.Json

inductive Found where
  | null
  | bool (b : Bool)
  /-- A whole number that fits in 64 bits. -/
  | integer (text : String)
  | number
  | sequence
  | map
  deriving DecidableEq, Repr

inductive Cause where
  | unfinishedList
  | unfinishedObject
  | unfinishedString
  | unfinishedValue
  | expectedColon
  | expectedListCommaOrEnd
  | expectedObjectCommaOrEnd
  | expectedIdent
  | expectedValue
  | invalidEscape
  | invalidNumber
  | invalidCodePoint
  | controlCharacter
  | keyNotString
  | loneSurrogate
  | trailingComma
  | trailingCharacters
  | endOfHexEscape
  | nestedTooDeep
  | notNumberText (found : Found)
  /-- The text could not be had; it does not happen to a text that is there as a whole. -/
  | io (error : IoError)
  deriving DecidableEq, Repr

inductive Category where
  | syntactic
  | eof
  | data
  | io
  deriving DecidableEq, Repr

def Cause.category : Cause → Category
  | .unfinishedList | .unfinishedObject | .unfinishedString | .unfinishedValue => .eof
  | .notNumberText _ => .data
  | .io _ => .io
  | _ => .syntactic

def Found.text : Found → String
  | .null => "null"
  | .bool true => "boolean `true`"
  | .bool false => "boolean `false`"
  | .integer text => "integer `" ++ text ++ "`"
  | .number => "number"
  | .sequence => "sequence"
  | .map => "map"

def Cause.text : Cause → String
  | .unfinishedList => "EOF while parsing a list"
  | .unfinishedObject => "EOF while parsing an object"
  | .unfinishedString => "EOF while parsing a string"
  | .unfinishedValue => "EOF while parsing a value"
  | .expectedColon => "expected `:`"
  | .expectedListCommaOrEnd => "expected `,` or `]`"
  | .expectedObjectCommaOrEnd => "expected `,` or `\x7d`"
  | .expectedIdent => "expected ident"
  | .expectedValue => "expected value"
  | .invalidEscape => "invalid escape"
  | .invalidNumber => "invalid number"
  | .invalidCodePoint => "invalid unicode code point"
  | .controlCharacter => "control character (\\u0000-\\u001F) found while parsing a string"
  | .keyNotString => "key must be a string"
  | .loneSurrogate => "lone leading surrogate in hex escape"
  | .trailingComma => "trailing comma"
  | .trailingCharacters => "trailing characters"
  | .endOfHexEscape => "unexpected end of hex escape"
  | .nestedTooDeep => "recursion limit exceeded"
  | .notNumberText found =>
    "invalid type: " ++ found.text ++ ", expected string containing a number"
  | .io e => e.message

/-- Lines count from one, columns are octets since the last line feed. Line zero is no place. -/
structure Position where
  line : Nat
  column : Nat
  deriving DecidableEq, Repr

def Position.next (p : Position) (b : UInt8) : Position :=
  if b = 0x0A then ⟨p.line + 1, 0⟩ else ⟨p.line, p.column + 1⟩

def Position.after (bs : List UInt8) : Position :=
  bs.foldl Position.next ⟨1, 0⟩

/-- A failure as the machine meets it: at the place `back` octets before the last octet taken,
or at a position inside the text of a number. -/
inductive Fault where
  | here (cause : Cause) (back : Nat)
  | within (cause : Cause) (position : Position)
  deriving DecidableEq, Repr

structure Error where
  cause : Cause
  category : Category
  position : Position
  deriving DecidableEq, Repr

/-- The octets read up to and with the one that failed are `taken`. -/
def Fault.toError (taken : List UInt8) : Fault → Error
  | .here cause back =>
    ⟨cause, cause.category, Position.after (taken.take (taken.length - back))⟩
  | .within cause position => ⟨cause, .data, position⟩

def Error.message (e : Error) : String :=
  if e.position.line = 0 then e.cause.text
  else e.cause.text ++ " at line " ++ toString e.position.line ++ " column " ++
    toString e.position.column

def Error.chain (e : Error) : List String :=
  e.message :: match e.cause with
    | .io below => below.chain.tail
    | _ => []

def Error.inspect (e : Error) : String :=
  "Error(" ++ Text.quoted e.cause.text ++ ", line: " ++ toString e.position.line ++
    ", column: " ++ toString e.position.column ++ ")"

end SchemaSnapshot.Json
