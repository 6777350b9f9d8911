namespace SchemaSnapshot.Json

def isDigit (b : UInt8) : Bool :=
  0x30 ≤ b && b ≤ 0x39

inductive NumberPart where
  | minus
  /-- After a leading zero. -/
  | zero
  | whole
  | point
  | fraction
  | mark
  | sign
  | exponent
  deriving DecidableEq, Repr

def NumberPart.complete : NumberPart → Bool
  | .zero | .whole | .fraction | .exponent => true
  | .minus | .point | .mark | .sign => false

/-- The text so far stands in `kept`, the last character first. -/
structure NumberScan where
  part : NumberPart
  kept : List Char
  deriving DecidableEq, Repr

namespace NumberScan

def start? (b : UInt8) : Option NumberScan :=
  if b = 0x2D then some ⟨.minus, ['-']⟩
  else if b = 0x30 then some ⟨.zero, ['0']⟩
  else if isDigit b then some ⟨.whole, [Char.ofUInt8 b]⟩
  else none

def text (n : NumberScan) : String :=
  String.ofList n.kept.reverse

/-- What one octet does to a number: it goes on, it ended before this octet, or it is no number.
-/
inductive Step where
  | more (n : NumberScan)
  | ended
  | invalid
  deriving DecidableEq, Repr

def digit (n : NumberScan) (part : NumberPart) (b : UInt8) : Step :=
  .more ⟨part, Char.ofUInt8 b :: n.kept⟩

def markOrEnd (n : NumberScan) (b : UInt8) : Step :=
  if b = 0x65 ∨ b = 0x45 then .more ⟨.mark, 'e' :: n.kept⟩ else .ended

def pointOrEnd (n : NumberScan) (b : UInt8) : Step :=
  if b = 0x2E then .more ⟨.point, '.' :: n.kept⟩ else n.markOrEnd b

def step (n : NumberScan) (b : UInt8) : Step :=
  match n.part with
  | .minus =>
    if b = 0x30 then n.digit .zero b else if isDigit b then n.digit .whole b else .invalid
  | .zero => if isDigit b then .invalid else n.pointOrEnd b
  | .whole => if isDigit b then n.digit .whole b else n.pointOrEnd b
  | .point => if isDigit b then n.digit .fraction b else .invalid
  | .fraction => if isDigit b then n.digit .fraction b else n.markOrEnd b
  | .mark =>
    if isDigit b then .more ⟨.exponent, Char.ofUInt8 b :: '+' :: n.kept⟩
    else if b = 0x2B ∨ b = 0x2D then .more ⟨.sign, Char.ofUInt8 b :: n.kept⟩
    else .invalid
  | .sign => if isDigit b then n.digit .exponent b else .invalid
  | .exponent => if isDigit b then n.digit .exponent b else .ended

end NumberScan

end SchemaSnapshot.Json
