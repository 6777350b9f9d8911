import SchemaSnapshot.Url.Percent

namespace SchemaSnapshot

abbrev Segment := List Char

namespace Segment

/-- A full stop, also in its encoded forms, then the rest. -/
def afterDot? : List Char → Option (List Char)
  | '.' :: r | '%' :: '2' :: 'e' :: r | '%' :: '2' :: 'E' :: r => some r
  | _ => none

def isHere (s : Segment) : Bool :=
  afterDot? s = some []

def isUp (s : Segment) : Bool :=
  (afterDot? s).bind afterDot? = some []

def isDrive : Segment → Bool
  | [c, d] => c.isAlpha && (d = ':' || d = '|')
  | _ => false

end Segment

inductive Url.Path where
  | opaqueText (text : List Char)
  | rooted (segments : List Segment)
  deriving DecidableEq, Repr

namespace Url.Path

def chars : Path → List Char
  | .opaqueText t => t
  | .rooted ss => ss.flatMap ('/' :: ·)

/-- Going up removes the last segment, unless it names a drive. -/
def shorten (done : List Segment) : List Segment :=
  match done.getLast? with
  | some s => if s.isDrive then done else done.dropLast
  | none => []

def push (done : List Segment) (s : Segment) : List Segment :=
  if s.isUp then shorten done
  else if s.isHere then done
  else done ++ [Percent.encode Percent.path s]

/-- The last segment; "here" and "up" leave an empty one. -/
def pushLast (done : List Segment) (s : Segment) : List Segment :=
  if s.isUp then shorten done ++ [[]]
  else if s.isHere then done ++ [[]]
  else done ++ [Percent.encode Percent.path s]

def resolve (done : List Segment) : List Segment → List Segment
  | [] => done
  | [s] => pushLast done s
  | s :: r => resolve (push done s) r

def dropEmpty : List Segment → List Segment
  | [] :: s :: r => dropEmpty (s :: r)
  | ss => ss

end Url.Path

end SchemaSnapshot
