import SchemaSnapshot.Url.Basic

namespace SchemaSnapshot.Url

open Text (cut split)

/-- Controls and spaces around a URL and line breaks and tabs inside it do not count. -/
def clean (cs : List Char) : List Char :=
  (Text.trim (· ≤ ' ') cs).filter fun c => c ≠ '\t' ∧ c ≠ '\n' ∧ c ≠ '\r'

def isSchemeChar (c : Char) : Bool :=
  c.isAlphanum || c = '+' || c = '-' || c = '.'

def splitScheme? (cs : List Char) : Option (Scheme × List Char) :=
  match cs, cs.dropWhile isSchemeChar with
  | c :: _, ':' :: r =>
    if c.isAlpha then some ((cs.takeWhile isSchemeChar).map Char.toLower, r) else none
  | _, _ => none

/-- A backslash is as good as a slash where the scheme is special. -/
def isSlash (kind : Scheme.Kind) (c : Char) : Bool :=
  c = '/' || (c = '\\' && kind ≠ .other)

def endsAuthority (kind : Scheme.Kind) (c : Char) : Bool :=
  isSlash kind c || c = '?' || c = '#'

def endsPath (c : Char) : Bool :=
  c = '?' || c = '#'

def splitUserinfo (cs : List Char) : Option (List Char) × List Char :=
  let after := (cs.reverse.takeWhile (· ≠ '@')).reverse
  if after.length < cs.length then (some (cs.take (cs.length - after.length - 1)), after)
  else (none, cs)

/-- The first colon parts the user name from the password; an empty password is none. -/
def readUserinfo (cs : List Char) : List Char × Option (List Char) :=
  let (name, rest) := cut (· = ':') cs
  let encode := Percent.encode Percent.userinfo
  match rest with
  | _ :: p :: r => (encode name, some (encode (p :: r)))
  | _ => (encode name, none)

def splitHost (inBrackets : Bool) : List Char → List Char × List Char
  | [] => ([], [])
  | c :: r =>
    if c = ':' ∧ !inBrackets then ([], c :: r)
    else
      let (host, rest) :=
        splitHost (if c = '[' then true else if c = ']' then false else inBrackets) r
      (c :: host, rest)

/-- A port is at most 65535 and ends where the authority ends, or at a backslash. -/
def readPort (scheme : Scheme) (cs : List Char) :
    Except Url.Error (Option Nat × List Char) :=
  let (digits, rest) := cut (fun c => !c.isDigit) cs
  match Ipv4.digits? 10 digits, rest with
  | some n, [] | some n, '\\' :: _ =>
    if 65535 < n then .error .invalidPort
    else if digits = [] ∨ scheme.defaultPort? = some n then .ok (none, rest)
    else .ok (some n, rest)
  | _, _ => .error .invalidPort

def readHostAndPort (scheme : Scheme) (cs : List Char) :
    Except Url.Error (Host × Option Nat × List Char) := do
  let (name, rest) := splitHost false cs
  if name = [] ∧ (scheme.kind = .special ∨ rest ≠ []) then .error .emptyHost
  let host ← if scheme.kind = .special then Host.ofSpecial name else Host.ofOpaque name
  match rest with
  | [] => return (host, none, [])
  | _ :: r =>
    let (port?, left) ← readPort scheme r
    return (host, port?, left)

/-- Whoever is named needs a host to be named at; `more` tells whether anything follows. -/
def readAuthority (scheme : Scheme) (cs : List Char) (more : Bool) :
    Except Url.Error (Authority × List Char) := do
  let (userinfo?, rest) := splitUserinfo cs
  if userinfo? = some [] ∧ rest = [] ∧ more then .error .emptyHost
  let (username, password?) := readUserinfo (userinfo?.getD [])
  let (host, port?, left) ← readHostAndPort scheme rest
  if host = .empty ∧ (username ≠ [] ∨ password? ≠ none) then .error .emptyHost
  return (⟨username, password?, host, port?⟩, left)

def readTail (kind : Scheme.Kind) (cs : List Char) : Option (List Char) × Option (List Char) :=
  let (query, rest) := cut (· = '#') cs
  let set := if kind = .other then Percent.query else Percent.specialQuery
  (match query with
    | [] => none
    | _ :: q => some (Percent.encode set q),
   match rest with
    | [] => none
    | _ :: f => some (Percent.encode Percent.fragment f))

def pieces (kind : Scheme.Kind) : List Char → List Segment
  | [] => [[]]
  | c :: r => split (isSlash kind) (if isSlash kind c then r else c :: r)

def readPath (kind : Scheme.Kind) (cs : List Char) : Path :=
  if cs = [] ∧ kind = .other then .rooted []
  else .rooted (Path.resolve [] (pieces kind cs))

def finish (scheme : Scheme) (authority? : Option Authority) (read : List Char → Path)
    (cs : List Char) : Url :=
  let (path, tail) := cut endsPath cs
  let (query?, fragment?) := readTail scheme.kind tail
  ⟨scheme, authority?, read path, query?, fragment?⟩

def readAfterSlashes (scheme : Scheme) (cs : List Char) : Except Url.Error Url := do
  let (authority, rest) := cut (endsAuthority scheme.kind) cs
  let (a, left) ← readAuthority scheme authority (rest ≠ [])
  return finish scheme (some a) (readPath scheme.kind) (left ++ rest)

def readOpaque (cs : List Char) : Path :=
  .opaqueText (Percent.encode Percent.control cs)

def readOther (scheme : Scheme) : List Char → Except Url.Error Url
  | '/' :: '/' :: r => readAfterSlashes scheme r
  | '/' :: r => .ok (finish scheme none (readPath .other) ('/' :: r))
  | cs => .ok (finish scheme none readOpaque cs)

/-- The path of a file. With a host before it, a first segment that names a drive takes the
place of the host. -/
def readFilePath (host : Host) (cs : List Char) : Host × Path :=
  match host, pieces .file cs with
  | .empty, ps => (.empty, .rooted (Path.dropEmpty (Path.resolve [] ps)))
  | host, [c, d] :: ps =>
    if Segment.isDrive [c, d] then
      (.empty, .rooted (Path.dropEmpty (Path.resolve [] ([c, ':'] :: ps))))
    else (host, .rooted (Path.dropEmpty (Path.resolve [] ([c, d] :: ps))))
  | host, ps => (host, .rooted (Path.dropEmpty (Path.resolve [] ps)))

def finishFile (scheme : Scheme) (host : Host) (cs : List Char) : Url :=
  let (path, tail) := cut endsPath cs
  let (query?, fragment?) := readTail .file tail
  let (host, path) := readFilePath host path
  ⟨scheme, some { host := host }, path, query?, fragment?⟩

/-- What stands where a host does is a path if it names a drive; `localhost` is as good as no
host. -/
def readFile (scheme : Scheme) : List Char → Except Url.Error Url
  | c :: d :: r =>
    if isSlash .file c && isSlash .file d then do
      let (name, rest) := cut (endsAuthority .file) r
      if name = [] ∨ Segment.isDrive name then return finishFile scheme .empty r
      let host ← Host.ofSpecial name
      return finishFile scheme (if host = .domain "localhost".toList then .empty else host) rest
    else .ok (finishFile scheme .empty (c :: d :: r))
  | cs => .ok (finishFile scheme .empty cs)

def isAnySlash (c : Char) : Bool :=
  c = '/' || c = '\\'

def readAfterScheme (scheme : Scheme) (cs : List Char) : Except Url.Error Url :=
  match scheme.kind with
  | .special => readAfterSlashes scheme (cs.dropWhile isAnySlash)
  | .file => readFile scheme cs
  | .other => readOther scheme cs

def parse (s : List Char) : Except Url.Error Url :=
  match splitScheme? (clean s) with
  | some (scheme, rest) => readAfterScheme scheme rest
  | none => .error .relativeWithoutBase

def folder : Path → List Segment
  | .rooted ss => ss.dropLast
  | .opaqueText _ => []

/-- A reference that names no scheme of its own, or the same one as the URL it stands in. -/
def readRelative (base : Url) (cs : List Char) : Except Url.Error Url :=
  let kind := base.scheme.kind
  match cs with
  | [] => .ok base.withoutFragment
  | '?' :: _ =>
    let (query?, fragment?) := readTail kind cs
    .ok { base with query? := query?, fragment? := fragment? }
  | '#' :: _ =>
    let (_, fragment?) := readTail kind cs
    .ok { base with fragment? := fragment? }
  | '/' :: '/' :: r => readAfterSlashes base.scheme r
  | c :: r =>
    if isAnySlash c then
      match r with
      | d :: _ =>
        if isAnySlash d then readAfterSlashes base.scheme (r.dropWhile isAnySlash)
        else .ok (finish base.scheme base.authority? (readPath kind) cs)
      | [] => .ok (finish base.scheme base.authority? (readPath kind) cs)
    else
      .ok (finish base.scheme base.authority?
        (fun p => .rooted (Path.resolve (folder base.path) (pieces kind p))) cs)

/-- The URL that a reference means where it stands in `base`, whose scheme is special. -/
def join (base : Url) (s : List Char) : Except Url.Error Url :=
  let cs := clean s
  match splitScheme? cs with
  | none => readRelative base cs
  | some (scheme, rest) =>
    if scheme = base.scheme ∧ (rest.takeWhile isAnySlash).length < 2 then readRelative base rest
    else readAfterScheme scheme rest

end SchemaSnapshot.Url
