import SchemaSnapshot.IoError

namespace SchemaSnapshot

inductive WhenFull where
  | refuses
  /-- It takes nothing, again and again. -/
  | takesNothing
  deriving DecidableEq, Repr

def WhenFull.error : WhenFull → IoError
  | .refuses => .brokenPipe
  | .takesNothing => .writeZero

structure Sink where
  /-- Octets that may be taken in total; none for no limit. -/
  limit : Option Nat
  whenFull : WhenFull
  taken : List UInt8
  deriving DecidableEq, Repr

namespace Sink

def unlimited : Sink := ⟨none, .refuses, []⟩

def empty (limit : Option Nat) (whenFull : WhenFull) : Sink := ⟨limit, whenFull, []⟩

def hasRoom (s : Sink) (bs : List UInt8) : Bool :=
  match s.limit with
  | none => true
  | some l => s.taken.length + bs.length ≤ l

def part (s : Sink) (bs : List UInt8) : List UInt8 :=
  match s.limit with
  | none => bs
  | some l => bs.take (l - s.taken.length)

def write (s : Sink) (bs : List UInt8) : Sink × Except IoError Unit :=
  ({ s with taken := s.taken ++ s.part bs },
    if s.hasRoom bs then .ok () else .error s.whenFull.error)

def writeAll (s : Sink) : List (List UInt8) → Sink × Except IoError Unit
  | [] => (s, .ok ())
  | bs :: rest =>
    match s.write bs with
    | (t, .ok ()) => writeAll t rest
    | (t, .error e) => (t, .error e)

end Sink

end SchemaSnapshot
