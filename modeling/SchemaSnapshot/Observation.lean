import SchemaSnapshot.Program
import SchemaSnapshot.Transcript
import SchemaSnapshot.World

namespace SchemaSnapshot.Program

structure Observed where
  status : Nat
  printed : String
  /-- What the watcher's writer took. -/
  watched : List UInt8
  requests : List Http.Request
  tree : File.Tree
  deriving DecidableEq, Repr

def watcher (isGone : Bool) : Sink :=
  if isGone then .empty (some 0) .refuses else .unlimited

/-- A run with the given arguments, log setting and watcher; `time` stands for all moments. -/
def observe (w : World) (arguments : List String) (setting? : Option String) (isGone : Bool)
    (time : String) : Observed :=
  let watched := (perform arguments).watchedBy (line (.ofSetting setting?) time)
    (watcher isGone)
  let run := watched.run w
  let (exit, sink) := run.result
  ⟨exit.status, exit.printed, sink.taken, run.requests, run.world.tree⟩

end SchemaSnapshot.Program
