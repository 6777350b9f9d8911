import SchemaSnapshot.Text.Hex
import SchemaSnapshot.Text.Split
import SchemaSnapshot.Text.Utf8

namespace SchemaSnapshot.Percent

def control (c : Char) : Bool :=
  c.toNat < 0x20 || 0x7E < c.toNat

def fragment (c : Char) : Bool :=
  control c || c ∈ [' ', '"', '<', '>', '`']

def path (c : Char) : Bool :=
  fragment c || c ∈ ['#', '?', '{', '}']

def userinfo (c : Char) : Bool :=
  path c || c ∈ ['/', ':', ';', '=', '@', '[', '\\', ']', '^', '|']

def query (c : Char) : Bool :=
  control c || c ∈ [' ', '"', '#', '<', '>']

def specialQuery (c : Char) : Bool :=
  query c || c = '\''

def digit (n : Nat) : Char :=
  if n < 10 then Char.ofNat ('0'.toNat + n) else Char.ofNat ('A'.toNat + (n - 10))

def octet (b : UInt8) : List Char :=
  ['%', digit (b.toNat / 16), digit (b.toNat % 16)]

def encodeChar (set : Char → Bool) (c : Char) : List Char :=
  if set c then (String.utf8EncodeChar c).flatMap octet else [c]

def encode (set : Char → Bool) (cs : List Char) : List Char :=
  cs.flatMap (encodeChar set)

/-- The octets meant by a text; a `%` without two digits stands for itself. -/
def decode : List Char → List UInt8
  | [] => []
  | '%' :: a :: b :: r =>
    match Hex.value? a.toNat, Hex.value? b.toNat with
    | some x, some y => UInt8.ofNat (x * 16 + y) :: decode r
    | _, _ => String.utf8EncodeChar '%' ++ decode (a :: b :: r)
  | c :: r => String.utf8EncodeChar c ++ decode r

end SchemaSnapshot.Percent
