import SchemaSnapshot.Json.Value
import SchemaSnapshot.Text.Quoted

namespace SchemaSnapshot.Json

/-- Only quotes, backslashes and control characters are escaped. -/
def escape (c : Char) : List Char :=
  match c with
  | '"' => ['\\', '"']
  | '\\' => ['\\', '\\']
  | '\x08' => ['\\', 'b']
  | '\t' => ['\\', 't']
  | '\n' => ['\\', 'n']
  | '\x0c' => ['\\', 'f']
  | '\r' => ['\\', 'r']
  | c =>
    if c.toNat < 0x10 then ['\\', 'u', '0', '0', '0'] ++ Text.hexDigits c.toNat
    else if c.toNat < 0x20 then ['\\', 'u', '0', '0'] ++ Text.hexDigits c.toNat
    else [c]

def literal (s : String) : List Char :=
  '"' :: (s.toList.flatMap escape ++ ['"'])

namespace Value

mutual

def compactChars : Value → List Char
  | .null => "null".toList
  | .bool true => "true".toList
  | .bool false => "false".toList
  | .number text => text.toList
  | .string s => literal s
  | .array vs => '[' :: (compactItems vs ++ [']'])
  | .object ms => '{' :: (compactMembers ms ++ ['}'])

def compactItems : List Value → List Char
  | [] => []
  | [v] => compactChars v
  | v :: vs => compactChars v ++ ',' :: compactItems vs

def compactMembers : List (String × Value) → List Char
  | [] => []
  | [(k, v)] => literal k ++ ':' :: compactChars v
  | (k, v) :: ms => literal k ++ ':' :: (compactChars v ++ ',' :: compactMembers ms)

end

def compact (v : Value) : String :=
  String.ofList v.compactChars

/-- A line feed and the indentation of a line inside `depth` arrays and objects. -/
def newLine (depth : Nat) : List Char :=
  '\n' :: List.replicate (2 * depth) ' '

mutual

def pieces (depth : Nat) : Value → List (List Char)
  | .null => ["null".toList]
  | .bool true => ["true".toList]
  | .bool false => ["false".toList]
  | .number text => [text.toList]
  | .string s => [literal s]
  | .array [] => [['[', ']']]
  | .array (v :: vs) =>
    ['['] :: newLine (depth + 1) :: (pieces (depth + 1) v ++ itemPieces (depth + 1) vs ++
      [newLine depth, [']']])
  | .object [] => [['{', '}']]
  | .object ((k, v) :: ms) =>
    ['{'] :: newLine (depth + 1) :: literal k :: [':', ' '] :: (pieces (depth + 1) v ++
      memberPieces (depth + 1) ms ++ [newLine depth, ['}']])

def itemPieces (depth : Nat) : List Value → List (List Char)
  | [] => []
  | v :: vs => [','] :: newLine depth :: (pieces depth v ++ itemPieces depth vs)

def memberPieces (depth : Nat) : List (String × Value) → List (List Char)
  | [] => []
  | (k, v) :: ms =>
    [','] :: newLine depth :: literal k :: [':', ' '] ::
      (pieces depth v ++ memberPieces depth ms)

end

def prettyChars (v : Value) : List Char :=
  (v.pieces 0).flatten

def pretty (v : Value) : String :=
  String.ofList v.prettyChars

mutual

def inspectChars : Value → List Char
  | .null => "Null".toList
  | .bool true => "Bool(true)".toList
  | .bool false => "Bool(false)".toList
  | .number text => "Number(".toList ++ text.toList ++ [')']
  | .string s => "String(".toList ++ Text.quoteChars s.toList ++ [')']
  | .array vs => "Array [".toList ++ inspectItems vs ++ [']']
  | .object ms => "Object ".toList ++ '{' :: (inspectMembers ms ++ ['}'])

def inspectItems : List Value → List Char
  | [] => []
  | [v] => inspectChars v
  | v :: vs => inspectChars v ++ ',' :: ' ' :: inspectItems vs

def inspectMembers : List (String × Value) → List Char
  | [] => []
  | [(k, v)] => Text.quoteChars k.toList ++ ':' :: ' ' :: inspectChars v
  | (k, v) :: ms =>
    Text.quoteChars k.toList ++ ':' :: ' ' ::
      (inspectChars v ++ ',' :: ' ' :: inspectMembers ms)

end

end Value

end SchemaSnapshot.Json
