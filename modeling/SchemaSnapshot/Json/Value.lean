namespace SchemaSnapshot.Json

inductive Value where
  | null
  | bool (b : Bool)
  | number (text : String)
  | string (s : String)
  | array (items : List Value)
  | object (members : List (String × Value))
  deriving Repr, Inhabited

abbrev Members := List (String × Value)

namespace Members

/-- A key given again keeps its place and takes the later value. -/
def insert (ms : Members) (key : String) (v : Value) : Members :=
  match ms with
  | [] => [(key, v)]
  | (k, w) :: r => if k = key then (k, v) :: r else (k, w) :: insert r key v

def get? (ms : Members) (key : String) : Option Value :=
  List.lookup key ms

def keys (ms : Members) : List String :=
  ms.map Prod.fst

end Members

namespace Value

mutual

/-- Documents are compared without regard to the order of members, numbers by their text. -/
def same : Value → Value → Bool
  | .null, .null => true
  | .bool a, .bool b => a == b
  | .number a, .number b => a == b
  | .string a, .string b => a == b
  | .array as, .array bs => sameItems as bs
  | .object as, .object bs => as.length == bs.length && sameMembers as bs
  | _, _ => false

def sameItems : List Value → List Value → Bool
  | [], [] => true
  | a :: as, b :: bs => same a b && sameItems as bs
  | _, _ => false

def sameMembers : List (String × Value) → Members → Bool
  | [], _ => true
  | (k, a) :: as, bs =>
    (match Members.get? bs k with
      | some b => same a b
      | none => false) && sameMembers as bs

end

instance : BEq Value := ⟨same⟩

def member? (key : String) : Value → Option Value
  | .object ms => Members.get? ms key
  | _ => none

end Value

end SchemaSnapshot.Json
