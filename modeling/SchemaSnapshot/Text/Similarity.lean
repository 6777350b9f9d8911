namespace SchemaSnapshot.Text

structure Likeness where
  num : Nat
  den : Nat
  deriving DecidableEq, Repr

namespace Likeness

def le (a b : Likeness) : Bool :=
  a.num * b.den ≤ b.num * a.den

end Likeness

/-- The places at which characters may still be matched to `c`: the first one from `low` on and
before `high` is taken. -/
def takeMatch (c : Char) (low high i : Nat) : List (Char × Bool) → Option (List (Char × Bool))
  | [] => none
  | (d, used) :: r =>
    if high ≤ i then none
    else if low ≤ i ∧ c = d ∧ !used then some ((d, true) :: r)
    else (takeMatch c low high (i + 1) r).map ((d, used) :: ·)

def matchAll (range i : Nat) : List Char → List (Char × Bool) → List Char × List (Char × Bool)
  | [], b => ([], b)
  | c :: r, b =>
    match takeMatch c (i - range) (i + range + 1) 0 b with
    | some b =>
      let (cs, b) := matchAll range (i + 1) r b
      (c :: cs, b)
    | none => matchAll range (i + 1) r b

def likeness (a b : List Char) : Likeness :=
  if a = [] ∧ b = [] then ⟨1, 1⟩
  else
    let range := max a.length b.length / 2 - 1
    let (as, marks) := matchAll range 0 a (b.map (·, false))
    let bs := (marks.filter Prod.snd).map Prod.fst
    let m := as.length
    let t := ((as.zip bs).filter fun (x, y) => x ≠ y).length / 2
    if m = 0 then ⟨0, 1⟩
    else ⟨m * m * b.length + m * m * a.length + (m - t) * a.length * b.length,
      3 * a.length * b.length * m⟩

/-- Among the names that are alike enough the one most alike, and of equals the last. -/
def closest {α : Type} (least : Likeness) (text : List Char) (name : α → List Char) :
    List α → Option α
  | [] => none
  | x :: r =>
    let here := likeness text (name x)
    match closest least text name r with
    | some y => if here.le (likeness text (name y)) then some y else some x
    | none => if least.le here then some x else none

end SchemaSnapshot.Text
