import SchemaSnapshot.Fetch.Fetcher
import SchemaSnapshot.Text.Similarity

namespace SchemaSnapshot.CommandLine

inductive Switch where
  | endpoint
  | output
  | help
  | version
  deriving DecidableEq, Repr

namespace Switch

def all : List Switch := [.endpoint, .output, .help, .version]

def name : Switch → List Char
  | .endpoint => "endpoint".toList
  | .output => "output".toList
  | .help => "help".toList
  | .version => "version".toList

def takesValue : Switch → Bool
  | .endpoint | .output => true
  | .help | .version => false

def shown : Switch → String
  | .endpoint => "--endpoint <ENDPOINT>"
  | .output => "--output <OUTPUT>"
  | .help => "--help"
  | .version => "--version"

def ofName? (cs : List Char) : Option Switch :=
  all.find? (·.name = cs)

end Switch

/-- Why a list of arguments is refused. `used` are the switches that the usage line names. -/
inductive UsageError where
  | unexpected (argument : List Char) (similar? : Option Switch) (used : List Switch)
  | valueRequired (switch : Switch)
  | repeated (switch : Switch)
  | unexpectedValue (value : List Char) (switch : Switch) (used : List Switch)
  deriving DecidableEq, Repr

structure Options where
  endpoint : String
  output : String
  deriving DecidableEq, Repr

namespace Options

def standard : Options := ⟨Fetch.defaultEndpoint, Fetch.defaultOutput⟩

def inspect (o : Options) : String :=
  "Opt \x7b endpoint: " ++ Text.quoted o.endpoint ++ ", output: " ++ Text.quotedPath o.output ++
    " \x7d"

def fetcher (o : Options) : Fetch.Fetcher := ⟨⟨o.endpoint⟩, o.output⟩

end Options

inductive Command where
  | fetch (options : Options)
  | help
  | version
  deriving DecidableEq, Repr

/-- A switch whose value has been given counts only once something else follows it. -/
inductive Pending where
  | none
  | awaiting (switch : Switch)
  | given (switch : Switch) (value : List Char)
  deriving DecidableEq, Repr

structure State where
  /-- The switches with their values, in the order in which they were given. -/
  settled : List (Switch × List Char)
  pending : Pending
  /-- Nothing that follows is a switch. -/
  literal : Bool
  deriving DecidableEq, Repr

namespace State

def start : State := ⟨[], .none, false⟩

def used (s : State) : List Switch :=
  s.settled.map Prod.fst

/-- A switch may be given once, and an output must have a name. -/
def accept (s : State) (switch : Switch) (value : List Char) : State × Except UsageError Unit :=
  if switch ∈ s.used then
    ({ s with settled := s.settled.filter (·.1 ≠ switch) }, .error (.repeated switch))
  else
    ({ s with settled := s.settled ++ [(switch, value)] },
      if switch = .output ∧ value = [] then .error (.valueRequired switch) else .ok ())

def settle (s : State) : State × Except UsageError Unit :=
  let free := { s with pending := .none }
  match s.pending with
  | .none => (free, .ok ())
  | .awaiting switch => (free, .error (.valueRequired switch))
  | .given switch value => free.accept switch value

end State

inductive Outcome where
  | more (s : State)
  | asked (c : Command)
  | failed (e : UsageError)
  deriving DecidableEq, Repr

def State.settled? (s : State) (k : State → Outcome) : Outcome :=
  match s.settle with
  | (t, .ok ()) => k t
  | (_, .error e) => .failed e

/-- Names as alike as this are taken for misspellings. -/
def leastLikeness : Text.Likeness := ⟨7, 10⟩

/-- A misspelt switch counts as given where the usage line is concerned. -/
def State.unknown (s : State) (name : List Char) : UsageError :=
  let used := s.settle.1.used
  match Text.closest leastLikeness name Switch.name Switch.all with
  | some similar =>
    .unexpected ('-' :: '-' :: name) (some similar)
      (if similar ∈ used then used else used ++ [similar])
  | none => .unexpected ('-' :: '-' :: name) none used

def State.long (s : State) (argument : List Char) : Outcome :=
  let (name, rest) := Text.cut (· = '=') argument
  match Switch.ofName? name, rest with
  | some switch, _ :: value =>
    if switch.takesValue then
      s.settled? fun s =>
        match s.accept switch value with
        | (t, .ok ()) => .more t
        | (_, .error e) => .failed e
    else .failed (.unexpectedValue value switch (s.used ++ [switch]))
  | some .help, [] => s.settled? fun _ => .asked .help
  | some .version, [] => s.settled? fun _ => .asked .version
  | some switch, [] => s.settled? fun s => .more { s with pending := .awaiting switch }
  | none, _ => .failed (s.unknown name)

def State.short (s : State) (letter : Char) : Outcome :=
  if letter = 'h' then s.settled? fun _ => .asked .help
  else if letter = 'V' then s.settled? fun _ => .asked .version
  else .failed (.unexpected ['-', letter] none [])

/-- An argument that is no switch: the value that a switch awaits, or one too many. -/
def State.plain (s : State) (argument : List Char) : Outcome :=
  match s.pending with
  | .awaiting switch =>
    if s.literal then .failed (.unexpected argument none [])
    else .more { s with pending := .given switch argument }
  | _ => .failed (.unexpected argument none [])

def State.step (s : State) (argument : List Char) : Outcome :=
  if s.literal then s.plain argument
  else
    match argument with
    | ['-', '-'] => .more { s with literal := true }
    | '-' :: '-' :: r => s.long r
    | '-' :: c :: _ => s.short c
    | _ => s.plain argument

def valueOr (settled : List (Switch × List Char)) (switch : Switch) (standard : String) :
    String :=
  match settled.lookup switch with
  | some v => String.ofList v
  | none => standard

def State.options (s : State) : Options :=
  ⟨valueOr s.settled .endpoint Options.standard.endpoint,
    valueOr s.settled .output Options.standard.output⟩

def State.finish (s : State) : Except UsageError Command :=
  match s.settle with
  | (t, .ok ()) => .ok (.fetch t.options)
  | (_, .error e) => .error e

def readFrom (s : State) : List (List Char) → Except UsageError Command
  | [] => s.finish
  | a :: r =>
    match s.step a with
    | .more t => readFrom t r
    | .asked c => .ok c
    | .failed e => .error e

def read (arguments : List String) : Except UsageError Command :=
  readFrom .start (arguments.map String.toList)

end SchemaSnapshot.CommandLine
