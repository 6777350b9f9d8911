import SchemaSnapshot.File.Path
import SchemaSnapshot.Log.Moment
import SchemaSnapshot.Program
import Std.Async.DNS
import Std.Async.TCP

namespace SchemaSnapshot.Outside

/-- The number under which the system reports an error; the network reports it negated. -/
def errorNumber (e : IO.Error) : Nat :=
  let code : UInt32 := match e with
    | .alreadyExists _ c _ | .interrupted _ c _ | .noFileOrDirectory _ c _
    | .invalidArgument _ c _ | .permissionDenied _ c _ | .resourceExhausted _ c _
    | .inappropriateType _ c _ | .noSuchThing _ c _ => c
    | .otherError c _ | .resourceBusy c _ | .resourceVanished c _ | .unsupportedOperation c _
    | .hardwareFault c _ | .unsatisfiedConstraints c _ | .illegalOperation c _
    | .protocolError c _ | .timeExpired c _ => c
    | .unexpectedEof | .userError _ => 5
  if code.toNat < UInt32.size / 2 then code.toNat else UInt32.size - code.toNat

def attempt {α : Type} (action : IO α) : IO (Except IoError α) := do
  match ← action.toBaseIO with
  | .ok a => return .ok a
  | .error e => return .error (.os (errorNumber e))

def isFolder (path : String) : IO Bool := do
  match ← attempt (IO.FS.realPath path) with
  | .ok found => found.isDir
  | .error _ => return false

def ensureFolder (path : String) : IO (Except IoError Unit) := do
  match ← attempt (IO.FS.createDir path) with
  | .ok () => return .ok ()
  | .error e => if ← isFolder path then return .ok () else return .error e

def makeFolders : List (List Char) → IO (Except IoError Unit)
  | [] => return .ok ()
  | part :: rest => do
    let path := String.ofList (File.joinParts (part :: rest).reverse)
    match ← ensureFolder path with
    | .error e =>
      if e = .notFound ∧ rest ≠ [] then
        match ← makeFolders rest with
        | .ok () => ensureFolder path
        | .error e => return .error e
      else return .error e
    | .ok () => return .ok ()

def save (path : String) (d : Document) : IO (Except IoError Unit) := do
  if '\x00' ∈ path.toList then return .error .nulInPath
  match ← makeFolders (File.folderParts path.toList).reverse with
  | .error e => return .error e
  | .ok () => attempt (IO.FS.writeFile path d.pretty)

def addresses (host : Host) (port : Nat) : IO (List Std.Net.IPAddr) := do
  match host with
  | .empty => return []
  | .ipv4 a =>
    match a.octetsOf.map UInt8.ofNat with
    | [b, c, d, e] => return [.v4 ⟨#v[b, c, d, e]⟩]
    | _ => return []
  | .ipv6 a =>
    match a.pieces with
    | [s, t, u, v, w, x, y, z] => return [.v6 ⟨#v[s, t, u, v, w, x, y, z]⟩]
    | _ => return []
  | .domain n =>
    match ← (Std.Async.DNS.getAddrInfo (String.ofList n) (toString port)).block.toBaseIO with
    | .ok found => return found.toList
    | .error _ => return []

def socketAddress (a : Std.Net.IPAddr) (port : Nat) : Std.Net.SocketAddress :=
  match a with
  | .v4 a => .v4 ⟨a, UInt16.ofNat port⟩
  | .v6 a => .v6 ⟨a, UInt16.ofNat port⟩

abbrev Socket := Std.Async.TCP.Socket.Client

def connect (port : Nat) (failure : Http.ConnectError) :
    List Std.Net.IPAddr → IO (Except Http.ConnectError Socket)
  | [] => return .error failure
  | a :: r => do
    let socket ← Std.Async.TCP.Socket.Client.mk
    match ← attempt (socket.connect (socketAddress a port)).block with
    | .ok () => return .ok socket
    | .error (.os code) => connect port (.system code) r
    | .error _ => connect port failure r

/-- Reads until the answer is whole or the connection is closed. -/
partial def receive (socket : Socket) (got : List UInt8) : IO (List UInt8) := do
  match ← attempt (socket.recv? 65536).block with
  | .ok (some part) =>
    let got := got ++ part.toList
    if Http.Response.needsMore got then receive socket got else return got
  | _ => return got

def deliver (r : Http.Request) : IO Http.Delivery := do
  let port := r.url.portOrDefault?.getD 80
  match ← connect port .unknownName (← addresses r.url.host port) with
  | .error e => return .noConnection e
  | .ok socket =>
    if r.url.scheme = "https".toList then return .noConnection .handshake
    match ← attempt (socket.send (ByteArray.mk r.octetsOf.toArray)).block with
    | .ok () => return .answered (← receive socket [])
    | .error _ => return .answered []

/-- Nobody may be watching, and then the first piece already fails. -/
def display : List String → IO (Except IoError Unit)
  | [] => return .ok ()
  | p :: ps => do
    match ← attempt (IO.eprint p) with
    | .ok () => display ps
    | .error e => return .error e

def now : IO String := do
  let t ← Std.Time.Timestamp.now
  return Log.momentText (t.toNanosecondsSinceUnixEpoch.val.toNat / 1000)

def carryOut {α : Type} (filter : Log.Filter) : Interaction α → IO α
  | .done a => return a
  | .send r next => do carryOut filter (next (← deliver r))
  | .save path d next => do carryOut filter (next (← save path d))
  | .tell ps next => do carryOut filter (next (← display ps))
  | .record r next => do
    let _ ← display [Program.line filter (← now) r]
    carryOut filter next

end SchemaSnapshot.Outside

def main (arguments : List String) : IO UInt32 := do
  let filter := SchemaSnapshot.Log.Filter.ofSetting (← IO.getEnv "RUST_LOG")
  let exit ← SchemaSnapshot.Outside.carryOut filter (SchemaSnapshot.Program.perform arguments)
  IO.print exit.printed
  return UInt32.ofNat exit.status
