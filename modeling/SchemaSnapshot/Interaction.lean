import SchemaSnapshot.Document
import SchemaSnapshot.Http.Failure
import SchemaSnapshot.Log.Record

namespace SchemaSnapshot

inductive Http.Delivery where
  | noConnection (error : Http.ConnectError)
  /-- All octets that come before the connection is closed. -/
  | answered (octets : List UInt8)
  deriving DecidableEq, Repr

inductive Message where
  /-- Text for whoever watches the program. -/
  | text (s : String)
  | record (r : Log.Record)
  deriving DecidableEq, Repr

/-- What is told is written piece by piece up to the first piece that cannot be written; whether
a record is shown is nothing that the computation could know. -/
inductive Interaction (α : Type) where
  | done (result : α)
  | send (request : Http.Request) (next : Http.Delivery → Interaction α)
  | save (path : String) (document : Document) (next : Except IoError Unit → Interaction α)
  | tell (pieces : List String) (next : Except IoError Unit → Interaction α)
  | record (r : Log.Record) (next : Interaction α)

namespace Interaction

def bind {α β : Type} : Interaction α → (α → Interaction β) → Interaction β
  | .done a, f => f a
  | .send r next, f => .send r fun d => (next d).bind f
  | .save p d next, f => .save p d fun r => (next r).bind f
  | .tell ps next, f => .tell ps fun r => (next r).bind f
  | .record r next, f => .record r (next.bind f)

instance : Monad Interaction where
  pure := .done
  bind := bind

def say (pieces : List String) : Interaction (Except IoError Unit) :=
  .tell pieces .done

def log (r : Log.Record) : Interaction Unit :=
  .record r (.done ())

end Interaction

end SchemaSnapshot
