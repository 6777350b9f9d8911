import SchemaSnapshot.Document
import SchemaSnapshot.File.Path

namespace SchemaSnapshot.File

inductive Entry where
  | file (content : List UInt8)
  | folder
  deriving DecidableEq, Repr

abbrev Place := List Name

structure Tree where
  entries : List (Place × Entry)
  deriving DecidableEq, Repr

namespace Tree

def empty : Tree := ⟨[]⟩

def find (entries : List (Place × Entry)) (p : Place) : Option Entry :=
  entries.lookup p

def put (entries : List (Place × Entry)) (p : Place) (e : Entry) : List (Place × Entry) :=
  match entries with
  | [] => [(p, e)]
  | (q, d) :: r => if q = p then (p, e) :: r else (q, d) :: put r p e

def get? (t : Tree) (p : Place) : Option Entry :=
  if p = [] then some .folder else find t.entries p

def insert (t : Tree) (p : Place) (e : Entry) : Tree :=
  ⟨put t.entries p e⟩

def check (path : List Char) : Except IoError Unit :=
  if '\x00' ∈ path then .error .nulInPath
  else if path = [] then .error .notFound
  else if maxPathLength ≤ octetLength path then .error .nameTooLong
  else .ok ()

def enter (t : Tree) (p : Place) : Step → Except IoError Place
  | .here => .ok p
  | .up => .ok p.dropLast
  | .name n =>
    if maxNameLength < octetLength n then .error .nameTooLong
    else
      match t.get? (p ++ [n]) with
      | some .folder => .ok (p ++ [n])
      | some (.file _) => .error .notDirectory
      | none => .error .notFound

def walk (t : Tree) (ss : List Step) : Except IoError Place :=
  ss.foldlM t.enter []

/-- Goes from a folder along the steps and makes the folders that are missing. A file in the way
is met as such, unless it stands where the last folder or one after a missing one has to be. -/
def makeFolders (t : Tree) (p : Place) (isMaking : Bool) :
    List Step → Tree × Except IoError Unit
  | [] => (t, .ok ())
  | .here :: r => t.makeFolders p isMaking r
  | .up :: r => t.makeFolders p.dropLast isMaking r
  | .name n :: r =>
    if maxNameLength < octetLength n then (t, .error .nameTooLong)
    else
      match t.get? (p ++ [n]) with
      | some .folder => t.makeFolders (p ++ [n]) isMaking r
      | none => (t.insert (p ++ [n]) .folder).makeFolders (p ++ [n]) true r
      | some (.file _) =>
        (t, .error (if isMaking ∨ r = [] then .alreadyExists else .notDirectory))

def makeWay (t : Tree) (path : List Char) : Tree × Except IoError Unit :=
  match folderParts path with
  | [] => (t, .ok ())
  | ps =>
    match check (joinParts ps) with
    | .error e => (t, .error e)
    | .ok () => t.makeFolders [] false (stepsOf ps)

/-- The place of a file that is to be written: in a folder, and no folder itself. -/
def placeOf (t : Tree) (path : List Char) : Except IoError Place := do
  check path
  match (steps path).getLast? with
  | none => .error .isDirectory
  | some last =>
    let p ← t.walk (steps path).dropLast
    match last with
    | .name n =>
      if endsInSlash path then .error .isDirectory
      else if maxNameLength < octetLength n then .error .nameTooLong
      else
        match t.get? (p ++ [n]) with
        | some .folder => .error .isDirectory
        | _ => .ok (p ++ [n])
    | _ => .error .isDirectory

def write (t : Tree) (path : List Char) (content : List UInt8) : Tree × Except IoError Unit :=
  match t.placeOf path with
  | .ok p => (t.insert p (.file content), .ok ())
  | .error e => (t, .error e)

def save (t : Tree) (path : List Char) (d : Document) : Tree × Except IoError Unit :=
  match t.makeWay path with
  | (u, .ok ()) => u.write path (octets d.pretty)
  | (u, .error e) => (u, .error e)

def read (t : Tree) (path : List Char) : Except IoError (List UInt8) := do
  check path
  match (steps path).getLast? with
  | none => .error .isDirectory
  | some last =>
    let p ← t.walk (steps path).dropLast
    match last with
    | .name n =>
      if maxNameLength < octetLength n then .error .nameTooLong
      else
        match t.get? (p ++ [n]) with
        | some (.file content) => if endsInSlash path then .error .notDirectory else .ok content
        | some .folder => .error .isDirectory
        | none => .error .notFound
    | _ => .error .isDirectory

end Tree

end SchemaSnapshot.File
