import SchemaSnapshot.Http.Failure
import SchemaSnapshot.Json.Fault
import SchemaSnapshot.Sink

namespace SchemaSnapshot.Fetch

inductive Cause where
  | invalidUrl (text : String) (error : Url.Error)
  | request (url : Url) (failure : Http.Failure)
  | status (url : Url) (status : Http.Status) (body : String)
  deriving DecidableEq, Repr

inductive Error where
  | fetch (endpoint : String) (cause : Cause)
  | parse (url : Url) (error : Json.Error)
  | write (path : String) (error : IoError)
  deriving DecidableEq, Repr

def Cause.chain : Cause → List String
  | .invalidUrl text e => ["invalid URL " ++ Text.quoted text, e.message]
  | .request u f => ("error getting " ++ u.text) :: f.chain
  | .status u s body =>
    ["unexpected HTTP status " ++ s.text ++ " for " ++ u.text ++ ":\n" ++ body]

def Cause.inspect : Cause → String
  | .invalidUrl text e =>
    "InvalidUrl \x7b url: " ++ Text.quoted text ++ ", source: " ++ e.name ++ " \x7d"
  | .request u f => "Request \x7b url: " ++ u.inspect ++ ", source: " ++ f.inspect ++ " \x7d"
  | .status u s body =>
    "Status \x7b url: " ++ u.inspect ++ ", status: " ++ toString s ++ ", body: " ++
      Text.quoted body ++ " \x7d"

namespace Error

def inspect : Error → String
  | .fetch endpoint cause =>
    "Fetch \x7b endpoint: " ++ Text.quoted endpoint ++ ", source: " ++ cause.inspect ++ " \x7d"
  | .parse u e => "Parse \x7b url: " ++ u.inspect ++ ", source: " ++ e.inspect ++ " \x7d"
  | .write path e =>
    "Write \x7b path: " ++ Text.quotedPath path ++ ", source: " ++ e.inspect ++ " \x7d"

def message : Error → String
  | .fetch endpoint _ => "could not fetch schema from " ++ endpoint
  | .parse u _ => "could not parse schema from " ++ u.text
  | .write path _ => "could not write schema to " ++ path

def chain : Error → List String
  | .fetch _ cause => cause.chain
  | .parse _ e => e.chain
  | .write _ e => e.chain

def exitCode : Error → Nat
  | _ => 1

def joined : List String → List String
  | [] => []
  | t :: ts => t :: ts.flatMap fun u => [": ", u]

/-- The report above causes with these texts, piece by piece as it is written. Of a text that
could not be read only the error itself is told. -/
def reportAbove (e : Error) (causes : List String) : List String :=
  match e with
  | .fetch endpoint _ =>
    "❌ Error fetching schema: " :: joined causes ++
      ["\n", "Is cognitod running at ", endpoint, "?\n"]
  | .parse _ error => ["❌ Error parsing schema JSON: ", error.message, "\n"]
  | .write path _ => "❌ Error writing schema to " :: path :: ": " :: joined causes ++ ["\n"]

def reportPieces (e : Error) : List String :=
  e.reportAbove e.chain

def report (e : Error) : String :=
  String.join e.reportPieces

def reportTo (e : Error) (s : Sink) : Sink × Except IoError Unit :=
  s.writeAll (e.reportPieces.map octets)

end Error

end SchemaSnapshot.Fetch
