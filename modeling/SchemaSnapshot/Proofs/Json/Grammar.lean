import SchemaSnapshot.Json.Reader

namespace SchemaSnapshot.Json.Grammar

abbrev Blank := {c : Char // c = ' ' ∨ c = '\t' ∨ c = '\n' ∨ c = '\r'}

abbrev Digit := {c : Char // '0' ≤ c ∧ c ≤ '9'}

abbrev NonzeroDigit := {c : Char // '1' ≤ c ∧ c ≤ '9'}

abbrev Mark := {c : Char // c = 'e' ∨ c = 'E'}

abbrev Sign := {c : Char // c = '+' ∨ c = '-'}

structure Digits where
  first : Digit
  rest : List Digit

def Digits.chars (ds : Digits) : List Char :=
  ds.first.val :: ds.rest.unattach

inductive Whole where
  | zero
  | nonzero (first : NonzeroDigit) (rest : List Digit)

def Whole.chars : Whole → List Char
  | .zero => ['0']
  | .nonzero first rest => first.val :: rest.unattach

structure Exponent where
  mark : Mark
  sign : Option Sign
  digits : Digits

def Exponent.chars (e : Exponent) : List Char :=
  e.mark.val :: (e.sign.toList.unattach ++ e.digits.chars)

structure Numeral where
  isNegative : Bool
  whole : Whole
  fraction : Option Digits
  exponent : Option Exponent

def minusChars (isNegative : Bool) : List Char :=
  if isNegative then ['-'] else []

def fractionChars : Option Digits → List Char
  | none => []
  | some ds => '.' :: ds.chars

def exponentChars : Option Exponent → List Char
  | none => []
  | some e => e.chars

/-- A number up to its exponent. -/
def mantissa (isNegative : Bool) (whole : Whole) (fraction : Option Digits) : List Char :=
  minusChars isNegative ++ (whole.chars ++ fractionChars fraction)

def Numeral.chars (n : Numeral) : List Char :=
  mantissa n.isNegative n.whole n.fraction ++ exponentChars n.exponent

/-- An exponent without a sign gets a plus. -/
def signed : List Char → List Char
  | [] => []
  | c :: cs => if c = '+' ∨ c = '-' then c :: cs else '+' :: c :: cs

/-- The text that is kept of a number: its exponent mark is a small `e` and has a sign. -/
def keptChars : List Char → List Char
  | [] => []
  | c :: cs => if c = 'e' ∨ c = 'E' then 'e' :: signed cs else c :: keptChars cs

abbrev PlainChar := {c : Char // 0x20 ≤ c.toNat ∧ c ≠ '"' ∧ c ≠ '\\'}

abbrev HexDigit :=
  {c : Char // ('0' ≤ c ∧ c ≤ '9') ∨ ('a' ≤ c ∧ c ≤ 'f') ∨ ('A' ≤ c ∧ c ≤ 'F')}

def HexDigit.value (d : HexDigit) : Nat :=
  if d.val ≤ '9' then d.val.toNat - '0'.toNat
  else if 'a' ≤ d.val then d.val.toNat - 'a'.toNat + 10
  else d.val.toNat - 'A'.toNat + 10

structure HexQuad where
  first : HexDigit
  second : HexDigit
  third : HexDigit
  fourth : HexDigit

namespace HexQuad

def chars (q : HexQuad) : List Char :=
  [q.first.val, q.second.val, q.third.val, q.fourth.val]

def code (q : HexQuad) : Nat :=
  ((HexDigit.value q.first * 16 + HexDigit.value q.second) * 16 + HexDigit.value q.third) * 16 +
    HexDigit.value q.fourth

def IsHigh (q : HexQuad) : Prop := 0xD800 ≤ q.code ∧ q.code ≤ 0xDBFF

def IsLow (q : HexQuad) : Prop := 0xDC00 ≤ q.code ∧ q.code ≤ 0xDFFF

instance (q : HexQuad) : Decidable q.IsHigh := inferInstanceAs (Decidable (_ ∧ _))

instance (q : HexQuad) : Decidable q.IsLow := inferInstanceAs (Decidable (_ ∧ _))

end HexQuad

inductive ShortEscape where
  | quote
  | backslash
  | slash
  | backspace
  | formFeed
  | lineFeed
  | carriageReturn
  | tab

namespace ShortEscape

def letter : ShortEscape → Char
  | .quote => '"'
  | .backslash => '\\'
  | .slash => '/'
  | .backspace => 'b'
  | .formFeed => 'f'
  | .lineFeed => 'n'
  | .carriageReturn => 'r'
  | .tab => 't'

def char : ShortEscape → Char
  | .quote => '"'
  | .backslash => '\\'
  | .slash => '/'
  | .backspace => '\x08'
  | .formFeed => '\x0c'
  | .lineFeed => '\n'
  | .carriageReturn => '\r'
  | .tab => '\t'

end ShortEscape

inductive StringUnit where
  | plain (c : PlainChar)
  | short (e : ShortEscape)
  | hex (q : HexQuad)

def StringUnit.chars : StringUnit → List Char
  | .plain c => [c.val]
  | .short e => ['\\', e.letter]
  | .hex q => '\\' :: 'u' :: q.chars

abbrev Literal := List StringUnit

namespace Literal

def body (l : Literal) : List Char :=
  l.flatMap StringUnit.chars

def chars (l : Literal) : List Char :=
  '"' :: (l.body ++ ['"'])

/-- Every escape of a surrogate is part of a pair, the high one first. -/
inductive Paired : Literal → Prop
  | nil : Paired []
  | plain : Paired l → Paired (.plain c :: l)
  | short : Paired l → Paired (.short e :: l)
  | scalar : ¬ q.IsHigh → ¬ q.IsLow → Paired l → Paired (.hex q :: l)
  | pair : q.IsHigh → r.IsLow → Paired l → Paired (.hex q :: .hex r :: l)

def contentChars : Literal → List Char
  | [] => []
  | .plain c :: l => c.val :: contentChars l
  | .short e :: l => e.char :: contentChars l
  | .hex q :: .hex r :: l =>
    if q.IsHigh ∧ r.IsLow then surrogatePair q.code r.code :: contentChars l
    else Char.ofNat q.code :: contentChars (.hex r :: l)
  | .hex q :: l => Char.ofNat q.code :: contentChars l

def content (l : Literal) : String :=
  String.ofList l.contentChars

end Literal

/-- What stands before the value of a member. -/
structure Label where
  before : List Blank
  key : Literal
  beforeColon : List Blank
  afterColon : List Blank

def Label.chars (l : Label) : List Char :=
  l.before.unattach ++ (l.key.chars ++ (l.beforeColon.unattach ++
    (':' :: l.afterColon.unattach)))

mutual

inductive Node where
  | null
  | bool (b : Bool)
  | number (n : Numeral)
  | string (l : Literal)
  | emptyArray (inside : List Blank)
  | array (before : List Blank) (item : Node) (tail : ItemTail)
  | emptyObject (inside : List Blank)
  | object (label : Label) (value : Node) (tail : EntryTail)

inductive ItemTail where
  | close (before : List Blank)
  | next (beforeComma before : List Blank) (item : Node) (tail : ItemTail)

inductive EntryTail where
  | close (before : List Blank)
  | next (beforeComma : List Blank) (label : Label) (value : Node) (tail : EntryTail)

end

mutual

def Node.chars : Node → List Char
  | .null => "null".toList
  | .bool true => "true".toList
  | .bool false => "false".toList
  | .number n => n.chars
  | .string l => l.chars
  | .emptyArray inside => '[' :: (inside.unattach ++ [']'])
  | .array before v tail => '[' :: (before.unattach ++ (v.chars ++ tail.chars))
  | .emptyObject inside => '{' :: (inside.unattach ++ ['}'])
  | .object label v tail => '{' :: (label.chars ++ (v.chars ++ tail.chars))

def ItemTail.chars : ItemTail → List Char
  | .close before => before.unattach ++ [']']
  | .next beforeComma before v tail =>
    beforeComma.unattach ++ (',' :: (before.unattach ++ (v.chars ++ tail.chars)))

def EntryTail.chars : EntryTail → List Char
  | .close before => before.unattach ++ ['}']
  | .next beforeComma label v tail =>
    beforeComma.unattach ++ (',' :: (label.chars ++ (v.chars ++ tail.chars)))

end

mutual

/-- How many arrays and objects are open at once. -/
def Node.depth : Node → Nat
  | .emptyArray _ | .emptyObject _ => 1
  | .array _ v tail => max v.depth tail.depth + 1
  | .object _ v tail => max v.depth tail.depth + 1
  | _ => 0

def ItemTail.depth : ItemTail → Nat
  | .close _ => 0
  | .next _ _ v tail => max v.depth tail.depth

def EntryTail.depth : EntryTail → Nat
  | .close _ => 0
  | .next _ _ v tail => max v.depth tail.depth

end

mutual

def Node.PairsSurrogates : Node → Prop
  | .string l => l.Paired
  | .array _ v tail => v.PairsSurrogates ∧ tail.PairsSurrogates
  | .object label v tail => label.key.Paired ∧ v.PairsSurrogates ∧ tail.PairsSurrogates
  | _ => True

def ItemTail.PairsSurrogates : ItemTail → Prop
  | .close _ => True
  | .next _ _ v tail => v.PairsSurrogates ∧ tail.PairsSurrogates

def EntryTail.PairsSurrogates : EntryTail → Prop
  | .close _ => True
  | .next _ label v tail => label.key.Paired ∧ v.PairsSurrogates ∧ tail.PairsSurrogates

end

/-- The value is a string, and the text of that string is a number. -/
def Node.IsNumberText (v : Node) : Prop :=
  ∃ (l : Literal) (n : Numeral), v = .string l ∧ l.contentChars = n.chars

def EntryTail.IsClose (tail : EntryTail) : Prop :=
  ∃ before, tail = .close before

mutual

/-- Every object that begins with the key of a number has no other member, and its value is the
text of a number. -/
def Node.SealsNumbers : Node → Prop
  | .array _ v tail => v.SealsNumbers ∧ tail.SealsNumbers
  | .object label v tail =>
    (label.key.content = numberKey → v.IsNumberText ∧ tail.IsClose) ∧
      v.SealsNumbers ∧ tail.SealsNumbers
  | _ => True

def ItemTail.SealsNumbers : ItemTail → Prop
  | .close _ => True
  | .next _ _ v tail => v.SealsNumbers ∧ tail.SealsNumbers

def EntryTail.SealsNumbers : EntryTail → Prop
  | .close _ => True
  | .next _ _ v tail => v.SealsNumbers ∧ tail.SealsNumbers

end

def Node.sealedText : Node → String
  | .string l => String.ofList (keptChars l.contentChars)
  | _ => ""

mutual

/-- The document that is written, a number being its kept text. -/
def Node.value : Node → Value
  | .null => .null
  | .bool b => .bool b
  | .number n => .number (String.ofList (keptChars n.chars))
  | .string l => .string l.content
  | .emptyArray _ => .array []
  | .array _ v tail => .array (v.value :: tail.values)
  | .emptyObject _ => .object []
  | .object label v tail =>
    if label.key.content = numberKey then .number v.sealedText
    else .object (tail.members [(label.key.content, v.value)])

def ItemTail.values : ItemTail → List Value
  | .close _ => []
  | .next _ _ v tail => v.value :: tail.values

/-- The members after these, each put in as an object takes it. -/
def EntryTail.members (ms : Members) : EntryTail → Members
  | .close _ => ms
  | .next _ label v tail => tail.members (ms.insert label.key.content v.value)

end

structure Text where
  before : List Blank
  node : Node
  after : List Blank

namespace Text

def chars (t : Text) : List Char :=
  t.before.unattach ++ (t.node.chars ++ t.after.unattach)

def PairsSurrogates (t : Text) : Prop := t.node.PairsSurrogates

def SealsNumbers (t : Text) : Prop := t.node.SealsNumbers

def depth (t : Text) : Nat := t.node.depth

def value (t : Text) : Value := t.node.value

end Text

end SchemaSnapshot.Json.Grammar
