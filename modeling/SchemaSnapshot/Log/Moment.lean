namespace SchemaSnapshot.Log

structure Date where
  year : Nat
  month : Nat
  day : Nat
  deriving DecidableEq, Repr

/-- The date so many days after the first of January 1970. Years are counted from March, so that
a leap day comes last, and in cycles of four hundred years. -/
def Date.ofDays (days : Nat) : Date :=
  let d := days + 719468
  let era := d / 146097
  let dayOfEra := d % 146097
  let yearOfEra := (dayOfEra - dayOfEra / 1460 + dayOfEra / 36524 - dayOfEra / 146096) / 365
  let dayOfYear := dayOfEra - (365 * yearOfEra + yearOfEra / 4 - yearOfEra / 100)
  let m := (5 * dayOfYear + 2) / 153
  let month := if m < 10 then m + 3 else m - 9
  ⟨yearOfEra + era * 400 + (if month ≤ 2 then 1 else 0), month,
    dayOfYear - (153 * m + 2) / 5 + 1⟩

def padded (width n : Nat) : String :=
  let digits := Nat.toDigits 10 n
  String.ofList (List.replicate (width - digits.length) '0' ++ digits)

def momentText (micros : Nat) : String :=
  let seconds := micros / 1000000
  let date := Date.ofDays (seconds / 86400)
  let rest := seconds % 86400
  padded 4 date.year ++ "-" ++ padded 2 date.month ++ "-" ++ padded 2 date.day ++ "T" ++
    padded 2 (rest / 3600) ++ ":" ++ padded 2 (rest % 3600 / 60) ++ ":" ++
      padded 2 (rest % 60) ++
    "." ++ padded 6 (micros % 1000000) ++ "Z"

end SchemaSnapshot.Log
