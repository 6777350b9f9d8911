namespace SchemaSnapshot.Log

/-- From the most to the least urgent. -/
inductive Level where
  | error
  | warn
  | info
  | debug
  | trace
  deriving DecidableEq, Repr

namespace Level

def verbosity : Level → Nat
  | .error => 1
  | .warn => 2
  | .info => 3
  | .debug => 4
  | .trace => 5

def label : Level → String
  | .error => "ERROR"
  | .warn => " WARN"
  | .info => " INFO"
  | .debug => "DEBUG"
  | .trace => "TRACE"

end Level

structure Span where
  target : String
  level : Level
  name : String
  fields : List (String × String)
  deriving DecidableEq, Repr

/-- The outermost span comes first. -/
structure Record where
  target : String
  level : Level
  spans : List Span
  message : String
  deriving DecidableEq, Repr

def programTarget : String := "fetch_insight_schema"
def fetcherTarget : String := "insight_schema_common::fetcher"
def clientTarget : String := "insight_schema_common::rest_api"
def documentTarget : String := "insight_schema_common::document"

end SchemaSnapshot.Log
