import SchemaSnapshot.Url.Percent

namespace SchemaSnapshot

structure Ipv4 where
  value : UInt32
  deriving DecidableEq, Repr

namespace Ipv4

def digits? (base : Nat) (cs : List Char) : Option Nat :=
  cs.foldl (fun n c => do
    let n ← n
    let d ← Hex.value? c.toNat
    if d < base then some (n * base + d) else none) (some 0)

/-- After `0x` a number is hexadecimal and after another `0` octal; it may have no digits after
its mark, but must not be empty. -/
def number? : List Char → Option Nat
  | [] => none
  | '0' :: 'x' :: r | '0' :: 'X' :: r => digits? 16 r
  | '0' :: c :: r => digits? 8 (c :: r)
  | cs => digits? 10 cs

def labels (name : List Char) : List (List Char) :=
  let parts := Text.split (· = '.') name
  if 1 < parts.length ∧ parts.getLast? = some [] then parts.dropLast else parts

/-- A name whose last label is a number has to be an address. -/
def isMeant (name : List Char) : Bool :=
  match (labels name).getLast? with
  | none => false
  | some l => (l ≠ [] && l.all Char.isDigit) || (number? l).isSome

/-- All numbers but the last are octets; the last one stands for all octets that are left. -/
def ofNumbers? (numbers : List Nat) : Option Ipv4 :=
  match numbers.getLast? with
  | none => none
  | some last =>
    let front := numbers.dropLast
    if front.length ≤ 3 ∧ front.all (· ≤ 255) ∧ last < Nat.pow 256 (4 - front.length) then
      let high := front.foldl (fun n x => n * 256 + x) 0
      some ⟨UInt32.ofNat (high * Nat.pow 256 (4 - front.length) + last)⟩
    else none

def ofName? (name : List Char) : Option Ipv4 := do
  ofNumbers? (← (labels name).mapM number?)

def octetsOf (a : Ipv4) : List Nat :=
  [a.value.toNat / 0x1000000, a.value.toNat / 0x10000 % 256, a.value.toNat / 0x100 % 256,
    a.value.toNat % 256]

def chars (a : Ipv4) : List Char :=
  ['.'].intercalate (a.octetsOf.map (Nat.toDigits 10))

end Ipv4

end SchemaSnapshot
