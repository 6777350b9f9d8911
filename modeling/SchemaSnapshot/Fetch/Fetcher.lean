import SchemaSnapshot.Fetch.Client
import SchemaSnapshot.Transcript

namespace SchemaSnapshot.Fetch

def defaultOutput : String := "datasets/schema/insight.schema.json"

structure Fetcher where
  client : Client
  output : String
  deriving DecidableEq, Repr

namespace Fetcher

def inspect (f : Fetcher) : String :=
  "SchemaFetcher \x7b client: " ++ f.client.inspect ++ ", output: " ++
    Text.quotedPath f.output ++ " \x7d"

def fetchingNote (f : Fetcher) : List String :=
  ["Fetching schema from ", f.client.endpoint, schemaPath, "...", "\n"]

def savedNote (f : Fetcher) : List String :=
  ["✅ Schema saved to ", f.output, "\n"]

def versionNote (d : Document) : List String :=
  ["Schema version: ", d.versionLabel, "\n"]

def span (f : Fetcher) : Log.Span :=
  ⟨Log.fetcherTarget, .debug, "fetch", [("endpoint", f.client.endpoint)]⟩

def savedRecord (f : Fetcher) : Log.Record :=
  ⟨Log.documentTarget, .debug,
    [f.span, ⟨Log.documentTarget, .trace, "write_to_path", [("path", f.output)]⟩],
    "wrote schema to " ++ f.output⟩

def unwrittenRecord (f : Fetcher) (e : IoError) : Log.Record :=
  ⟨Log.fetcherTarget, .warn, [f.span], "could not write diagnostic output: " ++ e.message⟩

/-- If a note cannot be written there is nobody to tell, so that is only recorded. -/
def note (f : Fetcher) (pieces : List String) : Interaction Unit := do
  match ← Interaction.say pieces with
  | .ok () => return ()
  | .error e => Interaction.log (f.unwrittenRecord e)

/-- The output is touched only when a document has arrived and has been read. -/
def fetch (f : Fetcher) : Interaction (Except Error Document) := do
  f.note f.fetchingNote
  match ← f.client.schema [f.span] with
  | .error e => return .error e
  | .ok d =>
    .save f.output d fun
      | .error e => .done (.error (.write f.output e))
      | .ok () => do
        Interaction.log f.savedRecord
        f.note f.savedNote
        f.note (versionNote d)
        return .ok d

def fetchTo (f : Fetcher) (s : Sink) : Interaction (Except Error Document × Sink) :=
  f.fetch.watchedBy Log.Record.hidden s

end Fetcher

end SchemaSnapshot.Fetch
