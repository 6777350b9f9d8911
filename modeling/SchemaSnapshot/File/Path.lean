import SchemaSnapshot.Text.Split
import SchemaSnapshot.Text.Utf8

namespace SchemaSnapshot.File

abbrev Name := List Char

inductive Step where
  | here
  | up
  | name (n : Name)
  deriving DecidableEq, Repr

namespace Step

def ofPart? : List Char → Option Step
  | [] => none
  | ['.'] => some .here
  | ['.', '.'] => some .up
  | n => some (.name n)

end Step

def parts (path : List Char) : List (List Char) :=
  Text.split (· = '/') path

def stepsOf (ps : List (List Char)) : List Step :=
  ps.filterMap Step.ofPart?

def steps (path : List Char) : List Step :=
  stepsOf (parts path)

def endsInSlash (path : List Char) : Bool :=
  path.getLast? = some '/'

def isIdle (part : List Char) : Bool :=
  part = [] || part = ['.']

/-- The parts that lead to the folder of a path; none if that is the starting point. -/
def folderParts (path : List Char) : List (List Char) :=
  let dropIdle := List.dropWhile isIdle
  (dropIdle ((dropIdle (parts path).reverse).drop 1)).reverse

def joinParts (ps : List (List Char)) : List Char :=
  ['/'].intercalate ps

def maxPathLength : Nat := 4096

def maxNameLength : Nat := 255

def octetLength (cs : List Char) : Nat :=
  (Utf8.encode cs).length

end SchemaSnapshot.File
