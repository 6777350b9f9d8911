import SchemaSnapshot.Url.Host
import SchemaSnapshot.Url.Path

namespace SchemaSnapshot

inductive Scheme.Kind where
  | special
  | file
  | other
  deriving DecidableEq, Repr

abbrev Scheme := List Char

namespace Scheme

def defaultPort? (s : Scheme) : Option Nat :=
  if s = "http".toList ∨ s = "ws".toList then some 80
  else if s = "https".toList ∨ s = "wss".toList then some 443
  else if s = "ftp".toList then some 21
  else none

def kind (s : Scheme) : Kind :=
  if s = "file".toList then .file
  else if (defaultPort? s).isSome then .special
  else .other

def isHttp (s : Scheme) : Bool :=
  s = "http".toList || s = "https".toList

end Scheme

structure Authority where
  username : List Char := []
  password? : Option (List Char) := none
  host : Host
  port? : Option Nat := none
  deriving DecidableEq, Repr

namespace Authority

def userinfoChars (a : Authority) : List Char :=
  match a.username, a.password? with
  | [], none => []
  | u, none => u ++ ['@']
  | u, some p => u ++ ':' :: p ++ ['@']

def portChars (a : Authority) : List Char :=
  match a.port? with
  | none => []
  | some p => ':' :: Nat.toDigits 10 p

def hostChars (a : Authority) : List Char :=
  a.host.chars ++ a.portChars

def chars (a : Authority) : List Char :=
  a.userinfoChars ++ a.hostChars

end Authority

structure Url where
  scheme : Scheme
  authority? : Option Authority
  path : Url.Path
  query? : Option (List Char)
  fragment? : Option (List Char)
  deriving DecidableEq, Repr

namespace Url

def optional (mark : Char) : Option (List Char) → List Char
  | none => []
  | some cs => mark :: cs

/-- Without an authority, a path that begins with two slashes is set off by a full stop. -/
def authorityChars (u : Url) : List Char :=
  match u.authority?, u.path with
  | some a, _ => '/' :: '/' :: a.chars
  | none, .rooted ([] :: _ :: _) => ['/', '.']
  | none, _ => []

def charsToPath (u : Url) : List Char :=
  u.scheme ++ ':' :: (u.authorityChars ++ u.path.chars)

def charsToQuery (u : Url) : List Char :=
  u.charsToPath ++ optional '?' u.query?

def chars (u : Url) : List Char :=
  u.charsToQuery ++ optional '#' u.fragment?

def text (u : Url) : String :=
  String.ofList u.chars

def host (u : Url) : Host :=
  match u.authority? with
  | some a => a.host
  | none => .empty

def portOrDefault? (u : Url) : Option Nat :=
  ((u.authority?.bind Authority.port?).or (u.scheme.defaultPort?))

def isHttp (u : Url) : Bool :=
  u.scheme.isHttp

def withoutFragment (u : Url) : Url :=
  { u with fragment? := none }

def withoutCredentials (u : Url) : Url :=
  { u with authority? := u.authority?.map fun a =>
    { a with username := [], password? := none } }

def credentials? (u : Url) : Option (List Char × Option (List Char)) :=
  match u.authority? with
  | none => none
  | some a =>
    if a.username = [] ∧ a.password? = none then none else some (a.username, a.password?)

def inspectOptional : Option (List Char) → List Char
  | none => "None".toList
  | some cs => "Some(".toList ++ Text.quoteChars cs ++ [')']

def inspectChars (u : Url) : List Char :=
  let a := u.authority?
  "Url \x7b scheme: ".toList ++ Text.quoteChars u.scheme ++
  ", cannot_be_a_base: ".toList ++
    (match u.path with | .opaqueText _ => "true" | .rooted _ => "false").toList ++
  ", username: ".toList ++ Text.quoteChars ((a.map Authority.username).getD []) ++
  ", password: ".toList ++ inspectOptional (a.bind Authority.password?) ++
  ", host: ".toList ++ u.host.inspectChars ++
  ", port: ".toList ++
    (match a.bind Authority.port? with
      | none => "None".toList
      | some p => "Some(".toList ++ Nat.toDigits 10 p ++ [')']) ++
  ", path: ".toList ++ Text.quoteChars u.path.chars ++
  ", query: ".toList ++ inspectOptional u.query? ++
  ", fragment: ".toList ++ inspectOptional u.fragment? ++ " \x7d".toList

def inspect (u : Url) : String :=
  String.ofList u.inspectChars

end Url

end SchemaSnapshot
