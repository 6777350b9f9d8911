import SchemaSnapshot.Json.Value
import SchemaSnapshot.Json.Number
import SchemaSnapshot.Json.StringScan

namespace SchemaSnapshot.Json

/-- An array or object whose current value is being read; items stand last first. -/
inductive Frame where
  | array (items : List Value)
  | member (members : Members) (key : String)
  deriving Repr

/-- What is being read, inside the containers on the stack. -/
inductive Phase where
  | value
  /-- After `[`: an item or `]`. -/
  | firstItem
  | item (items : List Value)
  /-- After an opening brace: a key or the closing brace. -/
  | firstKey
  | key (members : Members)
  | keyText (members : Members) (isFirst : Bool) (scan : StringScan)
  | colon (members : Members) (key : String)
  | literal (rest : List UInt8) (v : Value)
  | number (scan : NumberScan)
  | text (scan : StringScan)
  | after (v : Value)
  /-- In an object that stands for a number: after its key. -/
  | sealedColon
  | sealedValue
  | sealedText (scan : StringScan)
  /-- Inside a literal that stands where the number's text is needed. -/
  | sealedLiteral (rest : List UInt8) (found : Found)
  | sealedNumber (scan : NumberScan)
  | sealedEnd (text : String)
  deriving Repr

structure State where
  stack : List Frame
  phase : Phase
  deriving Repr

def start : State := ⟨[], .value⟩

/-- An object with this first key stands for the number whose text is its value. -/
def numberKey : String := "$serde_json::private::Number"

def maxDepth : Nat := 127

def isBlank (b : UInt8) : Bool :=
  b = 0x20 || b = 0x0A || b = 0x09 || b = 0x0D

def refuse {α : Type} (cause : Cause) : Except Fault α :=
  .error (.here cause 0)

/-- The whole text of a number. A sign or mark without a digit takes the octet that is no digit
along, so what follows that one is what the fault is about. -/
def numberRest (n : NumberScan) (p : Position) : List UInt8 → Except Fault String
  | [] => if n.part.complete then .ok n.text else .error (.within .unfinishedValue p)
  | b :: bs =>
    match n.step b with
    | .more m => numberRest m (p.next b) bs
    | .ended => .error (.within .invalidNumber (p.next b))
    | .invalid =>
      match n.part, bs with
      | .zero, _ | .point, _ | _, [] => .error (.within .invalidNumber (p.next b))
      | _, c :: _ => .error (.within .invalidNumber ((p.next b).next c))

def numberOfText (s : String) : Except Fault String :=
  match octets s with
  | [] => .error (.within .unfinishedValue ⟨1, 0⟩)
  | b :: bs =>
    match NumberScan.start? b with
    | some n => numberRest n (Position.next ⟨1, 0⟩ b) bs
    | none => .error (.within .invalidNumber (Position.next ⟨1, 0⟩ b))

def Found.ofNumber (text : String) : Found :=
  match text.toList with
  | '-' :: ds =>
    match (String.ofList ds).toNat? with
    | some n => if 0 < n ∧ n ≤ UInt64.size / 2 then .integer text else .number
    | none => .number
  | _ =>
    match text.toNat? with
    | some n => if n < UInt64.size then .integer text else .number
    | none => .number

namespace State

def begin (stack : List Frame) (b : UInt8) : Except Fault State :=
  match Char.ofUInt8 b with
  | '"' => .ok ⟨stack, .text .opened⟩
  | '[' => if stack.length < maxDepth then .ok ⟨stack, .firstItem⟩ else refuse .nestedTooDeep
  | '{' => if stack.length < maxDepth then .ok ⟨stack, .firstKey⟩ else refuse .nestedTooDeep
  | 'n' => .ok ⟨stack, .literal (octets "ull") .null⟩
  | 't' => .ok ⟨stack, .literal (octets "rue") (.bool true)⟩
  | 'f' => .ok ⟨stack, .literal (octets "alse") (.bool false)⟩
  | _ =>
    match NumberScan.start? b with
    | some n => .ok ⟨stack, .number n⟩
    | none => refuse .expectedValue

def follow (stack : List Frame) (v : Value) (b : UInt8) : Except Fault State :=
  if isBlank b then .ok ⟨stack, .after v⟩
  else match stack with
    | [] => refuse .trailingCharacters
    | .array items :: rest =>
      match Char.ofUInt8 b with
      | ',' => .ok ⟨rest, .item (v :: items)⟩
      | ']' => .ok ⟨rest, .after (.array (v :: items).reverse)⟩
      | _ => refuse .expectedListCommaOrEnd
    | .member members key :: rest =>
      match Char.ofUInt8 b with
      | ',' => .ok ⟨rest, .key (members.insert key v)⟩
      | '}' => .ok ⟨rest, .after (.object (members.insert key v))⟩
      | _ => refuse .expectedObjectCommaOrEnd

def keyed (stack : List Frame) (members : Members) (isFirst : Bool) (key : String) : State :=
  if isFirst && key == numberKey then ⟨stack, .sealedColon⟩ else ⟨stack, .colon members key⟩

def beginSealed (stack : List Frame) (b : UInt8) : Except Fault State :=
  match Char.ofUInt8 b with
  | '"' => .ok ⟨stack, .sealedText .opened⟩
  | 'n' => .ok ⟨stack, .sealedLiteral (octets "ull") .null⟩
  | 't' => .ok ⟨stack, .sealedLiteral (octets "rue") (.bool true)⟩
  | 'f' => .ok ⟨stack, .sealedLiteral (octets "alse") (.bool false)⟩
  | '[' => .error (.here (.notNumberText .sequence) 1)
  | '{' => .error (.here (.notNumberText .map) 1)
  | _ =>
    match NumberScan.start? b with
    | some n => .ok ⟨stack, .sealedNumber n⟩
    | none => refuse .expectedValue

def step (s : State) (b : UInt8) : Except Fault State :=
  let stay (phase : Phase) : Except Fault State := .ok ⟨s.stack, phase⟩
  match s.phase with
  | .value => if isBlank b then stay .value else begin s.stack b
  | .firstItem =>
    if isBlank b then stay .firstItem
    else if b = 0x5D then stay (.after (.array []))
    else begin (.array [] :: s.stack) b
  | .item items =>
    if isBlank b then stay (.item items)
    else if b = 0x5D then refuse .trailingComma
    else begin (.array items :: s.stack) b
  | .firstKey =>
    if isBlank b then stay .firstKey
    else if b = 0x22 then stay (.keyText [] true .opened)
    else if b = 0x7D then stay (.after (.object []))
    else refuse .keyNotString
  | .key members =>
    if isBlank b then stay (.key members)
    else if b = 0x22 then stay (.keyText members false .opened)
    else if b = 0x7D then refuse .trailingComma
    else refuse .keyNotString
  | .keyText members isFirst scan =>
    match scan.step b with
    | .more scan => stay (.keyText members isFirst scan)
    | .closed content => (StringScan.decode content).map (keyed s.stack members isFirst)
    | .failed cause => refuse cause
  | .colon members key =>
    if isBlank b then stay (.colon members key)
    else if b = 0x3A then .ok ⟨.member members key :: s.stack, .value⟩
    else refuse .expectedColon
  | .literal rest v =>
    match rest with
    | [] => follow s.stack v b
    | c :: rest =>
      if b = c then stay (if rest = [] then .after v else .literal rest v)
      else refuse .expectedIdent
  | .number scan =>
    match scan.step b with
    | .more scan => stay (.number scan)
    | .ended => follow s.stack (.number scan.text) b
    | .invalid => refuse .invalidNumber
  | .text scan =>
    match scan.step b with
    | .more scan => stay (.text scan)
    | .closed content => (StringScan.decode content).map fun t => ⟨s.stack, .after (.string t)⟩
    | .failed cause => refuse cause
  | .after v => follow s.stack v b
  | .sealedColon =>
    if isBlank b then stay .sealedColon
    else if b = 0x3A then stay .sealedValue
    else refuse .expectedColon
  | .sealedValue => if isBlank b then stay .sealedValue else beginSealed s.stack b
  | .sealedText scan =>
    match scan.step b with
    | .more scan => stay (.sealedText scan)
    | .closed content => do
      let number ← numberOfText (← StringScan.decode content)
      stay (.sealedEnd number)
    | .failed cause => refuse cause
  | .sealedLiteral rest found =>
    match rest with
    | [] => .error (.here (.notNumberText found) 1)
    | c :: rest =>
      if b = c then
        if rest = [] then refuse (.notNumberText found) else stay (.sealedLiteral rest found)
      else refuse .expectedIdent
  | .sealedNumber scan =>
    match scan.step b with
    | .more scan => stay (.sealedNumber scan)
    | .ended => .error (.here (.notNumberText (.ofNumber scan.text)) 1)
    | .invalid => refuse .invalidNumber
  | .sealedEnd text =>
    if isBlank b then stay (.sealedEnd text)
    else if b = 0x7D then stay (.after (.number text))
    else if b = 0x2C then refuse .trailingComma
    else refuse .trailingCharacters

def close (stack : List Frame) (v : Value) : Except Cause Value :=
  match stack with
  | [] => .ok v
  | .array _ :: _ => .error .unfinishedList
  | .member .. :: _ => .error .unfinishedObject

def finish (s : State) : Except Cause Value :=
  match s.phase with
  | .value | .item _ | .key _ | .literal .. | .sealedValue | .sealedLiteral .. =>
    .error .unfinishedValue
  | .firstItem => .error .unfinishedList
  | .firstKey | .colon .. | .sealedColon | .sealedEnd _ => .error .unfinishedObject
  | .keyText .. | .text _ | .sealedText _ => .error .unfinishedString
  | .number scan =>
    if scan.part.complete then close s.stack (.number scan.text) else .error .unfinishedValue
  | .after v => close s.stack v
  | .sealedNumber scan =>
    if scan.part.complete then .error (.notNumberText (.ofNumber scan.text))
    else .error .unfinishedValue

end State

/-- Goes through a text, `taken` being the octets already read, last first. -/
def run (s : State) (taken : List UInt8) : List UInt8 → Except Error Value
  | [] => s.finish.mapError fun cause => Fault.toError taken.reverse (.here cause 0)
  | b :: bs =>
    match s.step b with
    | .ok t => run t (b :: taken) bs
    | .error fault => .error (fault.toError (b :: taken).reverse)

def read (text : List UInt8) : Except Error Value :=
  run start [] text

end SchemaSnapshot.Json
