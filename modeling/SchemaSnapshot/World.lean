import SchemaSnapshot.File.Tree
import SchemaSnapshot.Http.Service

namespace SchemaSnapshot

structure World where
  service : Http.Service
  tree : File.Tree
  deriving DecidableEq, Repr

/-- What an interaction leaves behind, the requests that reached the service and the messages in
their order. -/
structure Run (α : Type) where
  result : α
  world : World
  requests : List Http.Request
  messages : List Message

namespace Interaction

def run {α : Type} (w : World) : Interaction α → Run α
  | .done a => ⟨a, w, [], []⟩
  | .send r next =>
    let (delivery, service) := w.service.deliver r
    let rest := (next delivery).run { w with service := service }
    { rest with requests := (if w.service.isServed r then [r] else []) ++ rest.requests }
  | .save path d next =>
    let (tree, result) := w.tree.save path.toList d
    (next result).run { w with tree := tree }
  | .tell ps next =>
    let rest := (next (.ok ())).run w
    { rest with messages := .text (String.join ps) :: rest.messages }
  | .record r next =>
    let rest := next.run w
    { rest with messages := .record r :: rest.messages }

/-- Runs again and again, each time in the world that the last run left. -/
def runTimes {α : Type} (i : Interaction α) (w : World) : Nat → List (Run α)
  | 0 => []
  | n + 1 =>
    let first := i.run w
    first :: i.runTimes first.world n

def worldAfter {α : Type} (w : World) (runs : List (Run α)) : World :=
  match runs.getLast? with
  | none => w
  | some r => r.world

end Interaction

end SchemaSnapshot
