namespace SchemaSnapshot.Text

/-- The pieces between separators: at least one, and one more than there are separators. -/
def split {α : Type} (isSeparator : α → Bool) : List α → List (List α)
  | [] => [[]]
  | c :: r =>
    if isSeparator c then [] :: split isSeparator r
    else
      match split isSeparator r with
      | [] => [[c]]
      | p :: ps => (c :: p) :: ps

/-- A part and the rest, which begins where the test first holds. -/
def cut {α : Type} (stop : α → Bool) (cs : List α) : List α × List α :=
  (cs.takeWhile (!stop ·), cs.dropWhile (!stop ·))

def trim {α : Type} (isBlank : α → Bool) (cs : List α) : List α :=
  ((cs.dropWhile isBlank).reverse.dropWhile isBlank).reverse

end SchemaSnapshot.Text
