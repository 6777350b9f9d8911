namespace SchemaSnapshot.Utf8

/-- Between characters, or inside one that still needs `owed` octets, the next from `low` to
`high`, with the bits of the code point read so far. -/
inductive State where
  | start
  | inside (owed low high bits : Nat)
  deriving DecidableEq, Repr

/-- What one octet does: the character goes on, is complete, or cannot go on. -/
inductive Step where
  | more (state : State)
  | char (c : Char)
  | refused
  deriving DecidableEq, Repr

def first (b : Nat) : Step :=
  if b ≤ 0x7F then .char (Char.ofNat b)
  else if 0xC2 ≤ b ∧ b ≤ 0xDF then .more (.inside 1 0x80 0xBF (b - 0xC0))
  else if b = 0xE0 then .more (.inside 2 0xA0 0xBF 0)
  else if b = 0xED then .more (.inside 2 0x80 0x9F 0xD)
  else if 0xE1 ≤ b ∧ b ≤ 0xEF then .more (.inside 2 0x80 0xBF (b - 0xE0))
  else if b = 0xF0 then .more (.inside 3 0x90 0xBF 0)
  else if 0xF1 ≤ b ∧ b ≤ 0xF3 then .more (.inside 3 0x80 0xBF (b - 0xF0))
  else if b = 0xF4 then .more (.inside 3 0x80 0x8F 4)
  else .refused

def State.step : State → UInt8 → Step
  | .start, b => first b.toNat
  | .inside owed low high bits, b =>
    if low ≤ b.toNat ∧ b.toNat ≤ high then
      let bits := bits * 64 + (b.toNat - 0x80)
      if owed ≤ 1 then .char (Char.ofNat bits) else .more (.inside (owed - 1) 0x80 0xBF bits)
    else .refused

def encode (cs : List Char) : List UInt8 :=
  cs.flatMap String.utf8EncodeChar

def decodeFrom : State → List Char → List UInt8 → Option (List Char)
  | .start, acc, [] => some acc.reverse
  | .inside .., _, [] => none
  | s, acc, b :: bs =>
    match s.step b with
    | .more t => decodeFrom t acc bs
    | .char c => decodeFrom .start (c :: acc) bs
    | .refused => none

def decode? (bs : List UInt8) : Option (List Char) :=
  decodeFrom .start [] bs

/-- Octets in the longest beginning that is made of whole characters; `taken` of them are in
characters already complete and `open_` in the one being read. -/
def validFrom : State → (taken open_ : Nat) → List UInt8 → Nat
  | _, taken, _, [] => taken
  | s, taken, open_, b :: bs =>
    match s.step b with
    | .more t => validFrom t taken (open_ + 1) bs
    | .char _ => validFrom .start (taken + open_ + 1) 0 bs
    | .refused => taken

def validLength (bs : List UInt8) : Nat :=
  validFrom .start 0 0 bs

def replacement : Char := '\uFFFD'

/-- An octet that cannot go on with the open character may still begin the next one. -/
def restart (b : UInt8) : State × List Char :=
  match State.start.step b with
  | .more t => (t, [])
  | .char c => (.start, [c])
  | .refused => (.start, [replacement])

def lossyFrom : State → List Char → List UInt8 → List Char
  | .start, acc, [] => acc.reverse
  | .inside .., acc, [] => (replacement :: acc).reverse
  | s, acc, b :: bs =>
    match s.step b with
    | .more t => lossyFrom t acc bs
    | .char c => lossyFrom .start (c :: acc) bs
    | .refused =>
      match s with
      | .start => lossyFrom .start (replacement :: acc) bs
      | .inside .. =>
        let (t, cs) := restart b
        lossyFrom t (cs ++ replacement :: acc) bs

/-- Each broken part is shown as one replacement character. -/
def lossy (bs : List UInt8) : List Char :=
  lossyFrom .start [] bs

end SchemaSnapshot.Utf8

namespace SchemaSnapshot

def octets (s : String) : List UInt8 :=
  Utf8.encode s.toList

end SchemaSnapshot
