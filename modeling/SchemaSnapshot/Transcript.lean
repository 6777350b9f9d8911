import SchemaSnapshot.Interaction

namespace SchemaSnapshot

namespace Sink

def writeText (s : Sink) (t : String) : Sink :=
  (s.write (octets t)).1

def writeTexts (s : Sink) (ts : List String) : Sink :=
  ts.foldl writeText s

end Sink

namespace Message

def text? : Message → Option String
  | .text s => some s
  | .record _ => none

def texts (ms : List Message) : List String :=
  ms.filterMap text?

def shown (line : Log.Record → String) : Message → String
  | .text s => s
  | .record r => line r

end Message

def Log.Record.hidden (_ : Log.Record) : String := ""

/-- The same interaction before a watcher: what is told and the lines of records go to the
watcher's writer, and a line that cannot be written is dropped. -/
def Interaction.watchedBy {α : Type} (line : Log.Record → String) (s : Sink) :
    Interaction α → Interaction (α × Sink)
  | .done a => .done (a, s)
  | .send r next => .send r fun d => (next d).watchedBy line s
  | .save p d next => .save p d fun r => (next r).watchedBy line s
  | .tell ps next =>
    match s.writeAll (ps.map octets) with
    | (t, r) => (next r).watchedBy line t
  | .record r next => next.watchedBy line (s.writeText (line r))

end SchemaSnapshot
