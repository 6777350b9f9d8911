namespace SchemaSnapshot.Terminal

inductive Mode where
  | ground
  | escape
  | escapeFinal
  | control
  /-- Ends at a bell, or where the next sequence begins. -/
  | command
  /-- Ends where the next sequence begins. -/
  | payload
  deriving DecidableEq, Repr

def isBlank (n : Nat) : Bool :=
  n = 0x09 || n = 0x0A || n = 0x0C || n = 0x0D

def isPrinted (n : Nat) : Bool :=
  (0x20 ≤ n && n ≠ 0x7F) || isBlank n

/-- The mode after a character that begins no sequence, and whether the character is kept. -/
def Mode.next (m : Mode) (n : Nat) : Mode × Bool :=
  match m with
  | .ground => (.ground, isPrinted n)
  | .command => (if n = 0x07 then .ground else .command, false)
  | .payload => (.payload, false)
  | m =>
    if isBlank n then (.ground, true)
    else
      match m with
      | .escape =>
        if n = 0x5B then (.control, false)
        else if n = 0x5D then (.command, false)
        else if n = 0x50 ∨ n = 0x58 ∨ n = 0x5E ∨ n = 0x5F then (.payload, false)
        else if 0x20 ≤ n ∧ n ≤ 0x2F then (.escapeFinal, false)
        else if 0x30 ≤ n ∧ n ≤ 0x7E then (.ground, false)
        else (.escape, false)
      | .escapeFinal => (if 0x30 ≤ n ∧ n ≤ 0x7E then .ground else .escapeFinal, false)
      | m => (if 0x40 ≤ n ∧ n ≤ 0x7E then .ground else m, false)

def Mode.step (m : Mode) (c : Char) : Mode × Bool :=
  if c = '\x1b' then (.escape, false)
  else if c = '\x18' ∨ c = '\x1a' then (.ground, false)
  else m.next c.toNat

def plainFrom (m : Mode) : List Char → List Char
  | [] => []
  | c :: r =>
    match m.step c with
    | (next, true) => c :: plainFrom next r
    | (next, false) => plainFrom next r

def plain (s : String) : String :=
  String.ofList (plainFrom .ground s.toList)

end SchemaSnapshot.Terminal
