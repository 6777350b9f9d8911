import SchemaSnapshot.Interaction

namespace SchemaSnapshot.Http

def maxRedirects : Nat := 10

def redirect? (base : Url) (r : Response) : Option Url :=
  if r.status.isRedirect then do
    let location ← (r.head.values "location").head?
    let location ← Utf8.decode? location
    let u ← (Url.join (asTarget base) location).toOption
    if isTarget u then some (asTarget u) else none
  else none

/-- The place that led to the next one is not told across a step down to a plain connection. -/
def refererFor (previous next : Url) : Option (List Char) :=
  if previous.scheme = "https".toList ∧ next.scheme = "http".toList then none
  else some (asTarget previous).withoutCredentials.chars

def isSamePeer (a b : Url) : Bool :=
  a.host = b.host && a.portOrDefault? = b.portOrDefault?

/-- The request after an answer that points to `next`; credentials are told only to the peer
that was asked last. -/
def Request.after (previous : Url) (credentials? : Option (List UInt8)) (next : Url) :
    Request :=
  ⟨next, if isSamePeer previous next then credentials? else none, refererFor previous next⟩

inductive Turn where
  | failed (failure : Failure)
  | final (response : Response)
  | redirected (next : Url)

/-- Failures name `start`, the URL that was asked for first. -/
def turn (start : Url) (request : Request) : Delivery → Turn
  | .noConnection e => .failed (.noConnection start request.url e)
  | .answered bs =>
    match Response.read bs with
    | .error e => .failed (.badHead start e)
    | .ok r =>
      match redirect? request.url r with
      | none => .final r
      | some next => .redirected next

def follow (start : Url) (credentials? : Option (List UInt8)) (left : Nat) (request : Request) :
    Interaction (Except Failure (Url × Response)) :=
  .send request fun delivery =>
    match turn start request delivery with
    | .failed f => .done (.error f)
    | .final r => .done (.ok (asTarget request.url, r))
    | .redirected next =>
      match left with
      | 0 => .done (.error (.tooManyRedirects (asTarget request.url)))
      | left + 1 =>
        if next.isHttp then
          follow start credentials? left (.after request.url credentials? next)
        else .done (.error (.schemeNotAllowed next))

def get (u : Url) : Interaction (Except Failure (Url × Response)) :=
  let request := Request.ofUrl u
  if !u.isHttp then .done (.error (.schemeNotAllowed request.url))
  else if !isTarget request.url then .done (.error (.notTarget request.url))
  else follow request.url request.credentials? maxRedirects request

end SchemaSnapshot.Http
