import SchemaSnapshot.Http.Body
import SchemaSnapshot.Http.Request
import SchemaSnapshot.IoError

namespace SchemaSnapshot.Http

inductive ConnectError where
  | unknownName
  /-- A failure that the system reports by its number. -/
  | system (code : Nat)
  /-- The other side does not speak the secure protocol. -/
  | handshake
  deriving DecidableEq, Repr

namespace ConnectError

def refused : ConnectError := .system 111

def unreachable : ConnectError := .system 101

def io : ConnectError → IoError
  | .unknownName =>
    .described "failed to lookup address information: Name or service not known" []
  | .system code => .os code
  | .handshake => .described "received corrupt message of type InvalidContentType" []

def chain : ConnectError → List String
  | .unknownName => ["dns error", "error resolving DNS", ConnectError.unknownName.io.message]
  | .handshake => [ConnectError.handshake.io.message]
  | e => ["tcp connect error", e.io.message]

end ConnectError

/-- The address at which a peer was asked; the only name that has one stands for this machine.
-/
def peerAddress (u : Url) : List Char :=
  (match u.host with
    | .ipv4 a => a.chars
    | .ipv6 a => '[' :: (a.inspectChars ++ [']'])
    | _ => "127.0.0.1".toList) ++ ':' :: Nat.toDigits 10 (u.portOrDefault?.getD 0)

def ConnectError.inspect (peer : Url) : ConnectError → String
  | .unknownName =>
    "ConnectError(\"dns error\", Custom \x7b kind: Uncategorized, error: " ++
      Text.quoted ConnectError.unknownName.io.message ++ " \x7d)"
  | .handshake =>
    "Custom \x7b kind: InvalidData, error: " ++
      Text.quoted ConnectError.handshake.io.message ++ " \x7d"
  | e =>
    "ConnectError(\"tcp connect error\", " ++ String.ofList (peerAddress peer) ++ ", " ++
      e.io.inspect ++ ")"

/-- The URL is the one that was asked for when it happened. -/
inductive Failure where
  | schemeNotAllowed (url : Url)
  | notTarget (url : Url)
  | noConnection (url : Url) (peer : Url) (error : ConnectError)
  | badHead (url : Url) (error : Head.Error)
  | badBody (url : Url) (error : Body.Error)
  | tooManyRedirects (url : Url)
  deriving DecidableEq, Repr

namespace Failure

def chain : Failure → List String
  | .schemeNotAllowed u =>
    ["builder error for url (" ++ u.text ++ ")", "URL scheme is not allowed"]
  | .notTarget u =>
    ["builder error for url (" ++ u.text ++ ")", "Parsed Url is not a valid Uri"]
  | .noConnection u _ e =>
    ["error sending request for url (" ++ u.text ++ ")", "client error (Connect)"] ++ e.chain
  | .badHead u e =>
    ["error sending request for url (" ++ u.text ++ ")",
      "client error (SendRequest)", e.message]
  | .badBody u e =>
    ["error decoding response body for url (" ++ u.text ++ ")",
      "error reading a body from connection", e.message]
  | .tooManyRedirects u =>
    ["error following redirect for url (" ++ u.text ++ ")", "too many redirects"]

/-- The kind under which the failure is logged, the URL of the failure, and what is below it. -/
def parts : Failure → String × Url × String
  | .schemeNotAllowed u => ("Builder", u, "BadScheme")
  | .notTarget u => ("Builder", u, "\"Parsed Url is not a valid Uri\"")
  | .noConnection u peer e =>
    ("Request", u, "hyper_util::client::legacy::Error(Connect, " ++ e.inspect peer ++ ")")
  | .badHead u e =>
    ("Request", u, "hyper_util::client::legacy::Error(SendRequest, hyper::Error(" ++
      e.name ++ "))")
  | .badBody u e => ("Decode", u, "hyper::Error(Body, " ++ e.inspect ++ ")")
  | .tooManyRedirects u => ("Redirect", u, "TooManyRedirects")

def inspect (f : Failure) : String :=
  let (kind, u, source) := f.parts
  "reqwest::Error \x7b kind: " ++ kind ++ ", url: " ++ Text.quoted u.text ++ ", source: " ++
    source ++ " \x7d"

end Failure

end SchemaSnapshot.Http
