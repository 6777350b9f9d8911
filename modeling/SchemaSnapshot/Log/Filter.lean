import SchemaSnapshot.Log.Record
import SchemaSnapshot.Text.Quoted
import SchemaSnapshot.Text.Split

namespace SchemaSnapshot.Log

structure FieldTest where
  name : String
  value? : Option String
  deriving DecidableEq, Repr

structure Directive where
  target? : Option String
  span? : Option String
  fields : List FieldTest
  /-- How much is let through: nothing at 0, all at 5. -/
  verbosity : Nat
  deriving DecidableEq, Repr

namespace Directive

def levelNames : List (List Char × Nat) :=
  [("off".toList, 0), ("error".toList, 1), ("warn".toList, 2), ("info".toList, 3),
   ("debug".toList, 4), ("trace".toList, 5)]

def decimal? (cs : List Char) : Option Nat :=
  if cs = [] ∨ !cs.all Char.isDigit then none
  else some (cs.foldl (fun n c => n * 10 + (c.toNat - '0'.toNat)) 0)

def verbosity? (cs : List Char) : Option Nat :=
  let number := match cs with
    | '+' :: r => decimal? r
    | r => decimal? r
  match number with
  | some n => if n ≤ 5 then some n else none
  | none => levelNames.lookup (cs.map Char.toLower)

def verbosityOrAll? (cs : List Char) : Option Nat :=
  if cs = [] then some 5 else verbosity? cs

/-- What the next character of a directive belongs to; `from_` is where it began. -/
inductive State where
  | start
  | levelOrTarget (from_ : Nat)
  | span (from_ : Nat)
  | field (from_ : Nat)
  | fields
  | afterSpan
  | level (from_ : Nat)
  deriving DecidableEq, Repr

def blank : Directive := ⟨none, none, [], 5⟩

def fieldTest (cs : List Char) : FieldTest :=
  match Text.cut (· = '=') cs with
  | (name, _ :: value) => ⟨String.ofList name, some (String.ofList value)⟩
  | (name, []) => ⟨String.ofList name, none⟩

def isStart (c : Char) : Bool :=
  c.isAlphanum || 0x80 ≤ c.toNat || c = '-' || c = ':' || c = '_'

def slice (text : List Char) (i j : Nat) : List Char :=
  (text.drop i).take (j - i)

def step (text : List Char) (i : Nat) (c : Char) :
    Directive × State → Option (Directive × State)
  | (d, .start) =>
    if c = '[' then some (d, .span (i + 1))
    else if isStart c then some (d, .levelOrTarget i)
    else none
  | (d, .levelOrTarget j) =>
    if c = '=' then
      some ({ d with target? := some (String.ofList (slice text j i)) }, .level (i + 1))
    else if c = '[' then
      some ({ d with target? := some (String.ofList (slice text j i)) }, .span (i + 1))
    else some (d, .levelOrTarget j)
  | (d, .span j) =>
    if c = ']' then some ({ d with span? := some (String.ofList (slice text j i)) }, .afterSpan)
    else if c = '{' then
      let name := slice text j i
      some ({ d with span? := if name = [] then none else some (String.ofList name) },
        .field (i + 1))
    else some (d, .span j)
  | (d, .field j) =>
    if c = '}' then
      let field := slice text j i
      if field = [] then none
      else some ({ d with fields := d.fields ++ [fieldTest field] }, .fields)
    else some (d, .field j)
  | (d, .fields) => if c = ']' then some (d, .afterSpan) else none
  | (d, .afterSpan) => if c = '=' then some (d, .level (i + 1)) else none
  | (d, .level j) => some (d, .level j)

def stepAll (text : List Char) (i : Nat) (s : Directive × State) :
    List Char → Option (Directive × State)
  | [] => some s
  | c :: r => do stepAll text (i + 1) (← step text i c s) r

def finish (text : List Char) : Directive × State → Option Directive
  | (d, .levelOrTarget j) =>
    let rest := text.drop j
    match verbosity? rest with
    | some v => some { d with verbosity := v }
    | none => some { d with target? := if rest = [] then none else some (String.ofList rest) }
  | (d, .level j) => do return { d with verbosity := ← verbosityOrAll? (text.drop j) }
  | (d, .afterSpan) => some d
  | _ => none

/-- Blanks around a directive are not read, but places are still counted from the first of them.
-/
def parse? (text : List Char) : Option Directive := do
  finish text (← stepAll text 0 (blank, .start) (Text.trim Char.isWhitespace text))

def isDynamic (d : Directive) : Bool :=
  d.span?.isSome || !d.fields.isEmpty

def isStatic (d : Directive) : Bool :=
  d.span?.isNone && d.fields.all (·.value?.isNone)

def matchesTarget (d : Directive) (target : String) : Bool :=
  match d.target? with
  | none => true
  | some t => t.toList.isPrefixOf target.toList

def isAbout (d : Directive) (s : Span) : Bool :=
  d.matchesTarget s.target &&
    (match d.span? with | none => true | some n => n = s.name) &&
    d.fields.all fun f => s.fields.any fun (n, _) => n = f.name

def isMet (d : Directive) (s : Span) : Bool :=
  d.fields.all fun f =>
    match f.value? with
    | none => true
    | some v => s.fields.any fun (n, w) => n = f.name && w = v

def targetLength (d : Directive) : Nat :=
  match d.target? with
  | none => 0
  | some t => t.utf8ByteSize + 1

end Directive

structure Filter where
  directives : List Directive
  deriving DecidableEq, Repr

namespace Filter

def standard : Filter := ⟨[{ Directive.blank with verbosity := 2 }]⟩

/-- A text with no directive at all still lets errors through. -/
def ofDirectives (ds : List Directive) : Filter :=
  ⟨if ds = [] then [{ Directive.blank with verbosity := 1 }] else ds⟩

def parse? (text : String) : Option Filter := do
  let parts := (Text.split (· = ',') text.toList).filter (· ≠ [])
  return ofDirectives (← parts.mapM Directive.parse?)

/-- A text that is missing or cannot be read is as good as the standard. -/
def ofSetting (setting? : Option String) : Filter :=
  (setting?.bind parse?).getD standard

/-- Among the directives for a target the longest one decides, and of equally long ones the
last. -/
def decisive (ds : List Directive) : Option Directive :=
  ds.foldl (fun best d =>
    match best with
    | none => some d
    | some b =>
      if b.targetLength < d.targetLength ∨
          (b.targetLength = d.targetLength ∧ b.fields.length ≤ d.fields.length)
      then some d else some b) none

def staticVerbosity (f : Filter) (target : String) (isSpan : Bool) : Nat :=
  match decisive (f.directives.filter fun d =>
      d.isStatic && d.matchesTarget target && (isSpan || d.fields.isEmpty)) with
  | some d => d.verbosity
  | none => 0

def spanVerbosity? (f : Filter) (s : Span) : Option Nat :=
  match f.directives.filter fun d => d.isDynamic && d.isAbout s with
  | [] => none
  | ds => some (((ds.filter (·.isMet s)).map Directive.verbosity).foldl max 0)

def maxVerbosity (f : Filter) : Nat :=
  (f.directives.map Directive.verbosity).foldl max 0

def openSpans (f : Filter) (scope : Nat) : List Span → List Span × Nat
  | [] => ([], scope)
  | s :: r =>
    let v := s.level.verbosity
    let isOpen := v ≤ f.maxVerbosity &&
      ((f.spanVerbosity? s).isSome || v ≤ scope || v ≤ f.staticVerbosity s.target true)
    if isOpen then
      let (shown, inner) := openSpans f (max scope ((f.spanVerbosity? s).getD 0)) r
      (s :: shown, inner)
    else openSpans f scope r

def shownSpans? (f : Filter) (r : Record) : Option (List Span) :=
  let (spans, scope) := f.openSpans 0 r.spans
  if r.level.verbosity ≤ scope ∨ r.level.verbosity ≤ f.staticVerbosity r.target false then
    some spans
  else none

end Filter

/-- Characters that could steer a terminal are shown by their codes. -/
def guardChar (c : Char) : List Char :=
  let two (n : Nat) : List Char := if n < 16 then '0' :: Text.hexDigits n else Text.hexDigits n
  if c ∈ ['\x07', '\x08', '\x0c', '\x1b', '\x7f'] then '\\' :: 'x' :: two c.toNat
  else if 0x80 ≤ c.toNat ∧ c.toNat ≤ 0x9F then
    '\\' :: 'u' :: '{' :: Text.hexDigits c.toNat ++ ['}']
  else [c]

def guarded (s : String) : String :=
  String.ofList (s.toList.flatMap guardChar)

def Span.text (s : Span) : String :=
  let fields := " ".intercalate (s.fields.map fun (n, v) => n ++ "=" ++ v)
  s.name ++ (if s.fields = [] then "" else "\x7b" ++ fields ++ "\x7d") ++ ":"

def Record.line (r : Record) (time : String) (spans : List Span) : String :=
  time ++ " " ++ r.level.label ++ " " ++
    (if spans = [] then "" else String.join (spans.map Span.text) ++ " ") ++
    guarded r.message ++ "\n"

end SchemaSnapshot.Log
