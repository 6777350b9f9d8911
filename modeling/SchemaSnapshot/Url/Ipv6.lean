import SchemaSnapshot.Url.Ipv4

namespace SchemaSnapshot

structure Ipv6 where
  pieces : List UInt16
  length_eq : pieces.length = 8
  deriving DecidableEq, Repr

namespace Ipv6

def piece? (cs : List Char) : Option UInt16 :=
  if cs ≠ [] ∧ cs.length ≤ 4 then (Ipv4.digits? 16 cs).map UInt16.ofNat else none

def octet? (cs : List Char) : Option Nat :=
  match cs with
  | [] => none
  | ['0'] => some 0
  | '0' :: _ => none
  | cs => do
    let n ← Ipv4.digits? 10 cs
    if n ≤ 255 then some n else none

def tail? (cs : List Char) : Option (List UInt16) := do
  match ← (Text.split (· = '.') cs).mapM octet? with
  | [a, b, c, d] => some [UInt16.ofNat (a * 256 + b), UInt16.ofNat (c * 256 + d)]
  | _ => none

/-- The pieces of a part without `::`, the last of which may be four octets. -/
def group? : List (List Char) → Option (List UInt16)
  | [] => some []
  | [p] => if '.' ∈ p then tail? p else (piece? p).map ([·])
  | p :: r => do return (← piece? p) :: (← group? r)

def splitGap : List Char → List Char × Option (List Char)
  | ':' :: ':' :: r => ([], some r)
  | c :: r => let (a, b) := splitGap r; (c :: a, b)
  | [] => ([], none)

def colonParts (cs : List Char) : List (List Char) :=
  if cs = [] then [] else Text.split (· = ':') cs

def ofPieces? (ps : List UInt16) : Option Ipv6 :=
  if h : ps.length = 8 then some ⟨ps, h⟩ else none

/-- Octets can only end the whole address, and `::` stands for one zero piece at least. -/
def ofChars? (cs : List Char) : Option Ipv6 :=
  match splitGap cs with
  | (all, none) => do ofPieces? (← group? (colonParts all))
  | (before, some after) => do
    let front ← (colonParts before).mapM piece?
    let back ← group? (colonParts after)
    if front.length + back.length ≤ 7 then
      ofPieces? (front ++ List.replicate (8 - (front.length + back.length)) 0 ++ back)
    else none

def zeros (ps : List UInt16) : Nat :=
  (ps.takeWhile (· = 0)).length

/-- Place and length of the first among the longest runs of zeros; `i` pieces stand before. -/
def longestRun (i : Nat) : List UInt16 → Nat × Nat
  | [] => (i, 0)
  | p :: r =>
    let here := zeros (p :: r)
    let (j, later) := longestRun (i + 1) r
    if here < later then (j, later) else (i, here)

def piecesChars (ps : List UInt16) : List Char :=
  [':'].intercalate (ps.map fun p => Nat.toDigits 16 p.toNat)

def chars (a : Ipv6) : List Char :=
  let (i, n) := longestRun 0 a.pieces
  if 2 ≤ n then
    piecesChars (a.pieces.take i) ++ [':', ':'] ++ piecesChars (a.pieces.drop (i + n))
  else piecesChars a.pieces

def mapped? (a : Ipv6) : Option Ipv4 :=
  match a.pieces with
  | [0, 0, 0, 0, 0, 0xFFFF, x, y] => some ⟨UInt32.ofNat (x.toNat * 65536 + y.toNat)⟩
  | _ => none

/-- As `chars`, but an address that stands for one of version four shows its octets. -/
def inspectChars (a : Ipv6) : List Char :=
  match a.mapped? with
  | some b => "::ffff:".toList ++ b.chars
  | none => a.chars

end Ipv6

end SchemaSnapshot
