import SchemaSnapshot.Text.Shown

namespace SchemaSnapshot.Text

def hexDigits (n : Nat) : List Char :=
  Nat.toDigits 16 n

def escapeChar (c : Char) : List Char :=
  match c with
  | '"' => ['\\', '"']
  | '\\' => ['\\', '\\']
  | '\n' => ['\\', 'n']
  | '\r' => ['\\', 'r']
  | '\t' => ['\\', 't']
  | '\x00' => ['\\', '0']
  | c => if isShown c then [c] else ['\\', 'u', '{'] ++ hexDigits c.toNat ++ ['}']

def quoteChars (cs : List Char) : List Char :=
  '"' :: (cs.flatMap escapeChar ++ ['"'])

def quoted (s : String) : String :=
  String.ofList (quoteChars s.toList)

/-- Paths are quoted like texts, with the single quote escaped too. -/
def quotedPath (s : String) : String :=
  String.ofList ('"' :: (s.toList.flatMap
    (fun c => if c = '\'' then ['\\', '\''] else escapeChar c) ++ ['"']))

end SchemaSnapshot.Text
