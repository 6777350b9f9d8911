import SchemaSnapshot.Text.Base64
import SchemaSnapshot.Url.Parser

namespace SchemaSnapshot.Http

structure AuthorityScan where
  colons : Nat := 0
  opened : Bool := false
  closed : Bool := false
  percent : Bool := false
  atEnd : Bool := false
  deriving DecidableEq, Repr

namespace AuthorityScan

def isPlain (c : Char) : Bool :=
  c.isAlphanum || c ∈ "!$&'()*+,-.;=_~".toList

/-- An `@` makes what stands before it user information, where colons and encoded octets are
free; so are they in brackets. -/
def step (s : AuthorityScan) (c : Char) : Option AuthorityScan :=
  let s := { s with atEnd := c = '@' }
  if c = '@' then some { s with colons := 0, percent := false }
  else if c = ':' then if 8 ≤ s.colons then none else some { s with colons := s.colons + 1 }
  else if c = '[' then if s.percent || s.opened then none else some { s with opened := true }
  else if c = ']' then
    if !s.opened || s.closed then none
    else some { s with closed := true, colons := 0, percent := false }
  else if c = '%' then some { s with percent := true }
  else if isPlain c then some s
  else none

def isComplete (s : AuthorityScan) : Bool :=
  s.opened = s.closed && s.colons ≤ 1 && !s.percent && !s.atEnd

end AuthorityScan

def isAuthority (cs : List Char) : Bool :=
  match cs.foldlM AuthorityScan.step {} with
  | some s => s.isComplete
  | none => false

def maxTargetLength : Nat := 65534

def maxSchemeLength : Nat := 64

/-- The URL can be written into a request: it names a place to ask, or reads as one by itself.
-/
def isTarget (u : Url) : Bool :=
  u.chars.length ≤ maxTargetLength &&
    match u.authority? with
    | some a => a.chars ≠ [] && isAuthority a.chars && u.scheme.length ≤ maxSchemeLength
    | none => isAuthority u.chars

/-- A place to ask is known without fragment, and its path is never empty. -/
def asTarget (u : Url) : Url :=
  let u := u.withoutFragment
  match u.authority?, u.path with
  | some _, .rooted [] => { u with path := .rooted [[]] }
  | _, _ => u

/-- User name and password that are not UTF-8 once decoded stay where they are. -/
def credentialsOf (u : Url) : Option (List UInt8) := do
  let (name, password?) ← u.credentials?
  let name := Percent.decode name
  let _ ← Utf8.decode? name
  let password? := (password?.map Percent.decode).filter fun p => (Utf8.decode? p).isSome
  if name = [] ∧ password? = none then none
  else some (name ++ octets ":" ++ password?.getD [])

structure Request where
  url : Url
  credentials? : Option (List UInt8)
  referer? : Option (List Char)
  deriving DecidableEq, Repr

namespace Request

/-- The first request for a URL; its credentials are sent apart from it. -/
def ofUrl (u : Url) : Request :=
  match credentialsOf u with
  | some c => ⟨u.withoutCredentials, some c, none⟩
  | none => ⟨u, none, none⟩

def target (r : Request) : List Char :=
  let u := asTarget r.url
  u.path.chars ++ Url.optional '?' u.query?

def line (r : Request) : String :=
  "GET " ++ String.ofList r.target ++ " HTTP/1.1"

def userAgent : String := "fetch-insight-schema/0.1.0"

def hostChars (r : Request) : List Char :=
  match r.url.authority? with
  | some a =>
    { a with
      port? := if a.port? = r.url.scheme.defaultPort? then none else a.port? }.hostChars
  | none => []

def fields (r : Request) : List (String × String) :=
  [("accept", "application/json")] ++
  (r.credentials?.map fun c =>
    ("authorization", "Basic " ++ String.ofList (Base64.encode c))).toList ++
  [("host", String.ofList r.hostChars)] ++
  (r.referer?.map fun u => ("referer", String.ofList u)).toList ++
  [("user-agent", userAgent)]

def octetsOf (r : Request) : List UInt8 :=
  octets (r.line ++ "\r\n" ++
    String.join (r.fields.map fun (name, value) => name ++ ": " ++ value ++ "\r\n") ++ "\r\n")

end Request

end SchemaSnapshot.Http
