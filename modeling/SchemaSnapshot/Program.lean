import SchemaSnapshot.CommandLine.Usage
import SchemaSnapshot.Log.Filter
import SchemaSnapshot.Text.Terminal

namespace SchemaSnapshot.Program

structure Exit where
  status : Nat
  /-- What is printed for the one who asked. -/
  printed : String
  deriving DecidableEq, Repr

def usageStatus : Nat := 2

/-- The status when not even the report of a failure could be written. -/
def failureStatus : Nat := 1

def argumentsRecord (o : CommandLine.Options) : Log.Record :=
  ⟨Log.programTarget, .debug, [], "Args: " ++ o.inspect⟩

def failureRecord (e : Fetch.Error) : Log.Record :=
  ⟨Log.programTarget, .debug, [], "fetch failed: " ++ e.inspect⟩

def unreportedNote (e : IoError) : List String :=
  ["Error: ", "could not write error report", "\n\nCaused by:\n    ", e.message, "\n"]

def fetch (o : CommandLine.Options) : Interaction Exit := do
  Interaction.log (argumentsRecord o)
  match ← o.fetcher.fetch with
  | .ok _ => return ⟨0, ""⟩
  | .error e => do
    Interaction.log (failureRecord e)
    match ← Interaction.say e.reportPieces with
    | .ok () => return ⟨e.exitCode, ""⟩
    | .error unreported => do
      let _ ← Interaction.say (unreportedNote unreported)
      return ⟨failureStatus, ""⟩

def perform (arguments : List String) : Interaction Exit :=
  match CommandLine.read arguments with
  | .error e => do
    let _ ← Interaction.say [Terminal.plain e.text]
    return ⟨usageStatus, ""⟩
  | .ok .help => .done ⟨0, CommandLine.helpText⟩
  | .ok .version => .done ⟨0, CommandLine.versionText⟩
  | .ok (.fetch o) => fetch o

def line (filter : Log.Filter) (time : String) (r : Log.Record) : String :=
  match filter.shownSpans? r with
  | some spans => r.line time spans
  | none => ""

end SchemaSnapshot.Program
