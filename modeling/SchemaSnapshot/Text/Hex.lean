namespace SchemaSnapshot.Hex

/-- The value of the digit with this code, in letters of either case. -/
def value? (code : Nat) : Option Nat :=
  if 0x30 ≤ code ∧ code ≤ 0x39 then some (code - 0x30)
  else if 0x61 ≤ code ∧ code ≤ 0x66 then some (code - 0x57)
  else if 0x41 ≤ code ∧ code ≤ 0x46 then some (code - 0x37)
  else none

end SchemaSnapshot.Hex
