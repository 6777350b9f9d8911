import SchemaSnapshot.CommandLine.Options

namespace SchemaSnapshot.CommandLine

def programName : String := "fetch-insight-schema"

def versionText : String := programName ++ " 0.1.0\n"

def anySwitch : String := "[OPTIONS]"

def usageLine (used : List Switch) : String :=
  "Usage: " ++ programName ++ " " ++
    (if used = [] then anySwitch else " ".intercalate (used.map Switch.shown)) ++ "\n"

def helpText : String :=
  "Fetch the insight JSON Schema from a running cognitod and save it.\n\n" ++
  usageLine [] ++ "\n" ++
  "Options:\n" ++
  "      --endpoint <ENDPOINT>  Base URL of the cognitod HTTP API [default: " ++
    Options.standard.endpoint ++ "]\n" ++
  "      --output <OUTPUT>      Where to write the pretty-printed schema [default: " ++
    Options.standard.output ++ "]\n" ++
  "  -h, --help                 Print help\n" ++
  "  -V, --version              Print version\n"

def quotedArgument (cs : List Char) : String :=
  "'" ++ String.ofList cs ++ "'"

namespace UsageError

def summary : UsageError → String
  | .unexpected argument _ _ => "unexpected argument " ++ quotedArgument argument ++ " found"
  | .valueRequired s =>
    "a value is required for " ++ quotedArgument s.shown.toList ++ " but none was supplied"
  | .repeated s =>
    "the argument " ++ quotedArgument s.shown.toList ++ " cannot be used multiple times"
  | .unexpectedValue value s _ =>
    "unexpected value " ++ quotedArgument value ++ " for " ++ quotedArgument s.shown.toList ++
      " found; no more were expected"

def tip : UsageError → String
  | .unexpected _ (some s) _ =>
    "  tip: a similar argument exists: " ++ quotedArgument ('-' :: '-' :: s.name) ++ "\n\n"
  | _ => ""

/-- How the program is used; nothing is said where only a value is missing. -/
def usage : UsageError → String
  | .unexpected _ _ used | .unexpectedValue _ _ used => usageLine used ++ "\n"
  | .repeated _ => usageLine [] ++ "\n"
  | .valueRequired _ => ""

def text (e : UsageError) : String :=
  "error: " ++ e.summary ++ "\n\n" ++ e.tip ++ e.usage ++
    "For more information, try '--help'.\n"

end UsageError

end SchemaSnapshot.CommandLine
