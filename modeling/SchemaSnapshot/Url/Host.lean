import SchemaSnapshot.Text.Quoted
import SchemaSnapshot.Url.Ipv6

namespace SchemaSnapshot

inductive Url.Error where
  | emptyHost
  | invalidInternationalName
  | invalidPort
  | invalidIpv4
  | invalidIpv6
  | invalidDomainCharacter
  | relativeWithoutBase
  /-- Only the tables of international names tell what the name stands for; they are not part of
  this library. -/
  | unmappedName
  deriving DecidableEq, Repr

namespace Url.Error

def message : Url.Error → String
  | .emptyHost => "empty host"
  | .invalidInternationalName => "invalid international domain name"
  | .invalidPort => "invalid port number"
  | .invalidIpv4 => "invalid IPv4 address"
  | .invalidIpv6 => "invalid IPv6 address"
  | .invalidDomainCharacter => "invalid domain character"
  | .relativeWithoutBase => "relative URL without a base"
  | .unmappedName => "invalid international domain name"

def name : Url.Error → String
  | .emptyHost => "EmptyHost"
  | .invalidInternationalName => "IdnaError"
  | .invalidPort => "InvalidPort"
  | .invalidIpv4 => "InvalidIpv4Address"
  | .invalidIpv6 => "InvalidIpv6Address"
  | .invalidDomainCharacter => "InvalidDomainCharacter"
  | .relativeWithoutBase => "RelativeUrlWithoutBase"
  | .unmappedName => "IdnaError"

end Url.Error

inductive Host where
  | empty
  | domain (name : List Char)
  | ipv4 (address : Ipv4)
  | ipv6 (address : Ipv6)
  deriving DecidableEq, Repr

namespace Host

def chars : Host → List Char
  | .empty => []
  | .domain name => name
  | .ipv4 a => a.chars
  | .ipv6 a => '[' :: (a.chars ++ [']'])

def forbidden (c : Char) : Bool :=
  c.toNat ≤ 0x20 || 0x7F ≤ c.toNat ||
    c ∈ ['%', '#', '/', ':', '<', '>', '?', '@', '[', '\\', ']', '^', '|']

/-- The name is beyond ASCII, or one of its labels stands for something beyond ASCII. -/
def isInternational (name : List Char) : Bool :=
  name.any (0x80 ≤ ·.toNat) ||
    (Text.split (· = '.') name).any fun label => (label.take 4).map Char.toLower = "xn--".toList

def forbiddenOpaque (c : Char) : Bool :=
  c ∈ ['\x00', '\t', '\n', '\r', ' ', '#', '/', ':', '<', '>', '?', '@', '[',
    '\\', ']', '^', '|']

def bracketed (cs : List Char) : Except Url.Error Host :=
  match cs.getLast? with
  | some ']' =>
    match Ipv6.ofChars? cs.dropLast with
    | some a => .ok (.ipv6 a)
    | none => .error .invalidIpv6
  | _ => .error .invalidIpv6

/-- A name as it is once its encoded octets are read, in small letters. -/
def ofName (name : List Char) : Except Url.Error Host :=
  if isInternational name then .error .unmappedName
  else if name.any forbidden then .error .invalidInternationalName
  else
    let name := name.map Char.toLower
    if Ipv4.isMeant name then
      match Ipv4.ofName? name with
      | some a => .ok (.ipv4 a)
      | none => .error .invalidIpv4
    else if name = [] then .error .emptyHost else .ok (.domain name)

def ofSpecial : List Char → Except Url.Error Host
  | '[' :: r => bracketed r
  | cs => ofName ((Percent.decode cs).map fun b => Char.ofNat b.toNat)

def ofOpaque : List Char → Except Url.Error Host
  | '[' :: r => bracketed r
  | cs =>
    if cs.any forbiddenOpaque then .error .invalidDomainCharacter
    else .ok (if cs = [] then .empty else .domain (Percent.encode Percent.control cs))

def inspectChars : Host → List Char
  | .empty => "None".toList
  | .domain name => "Some(Domain(".toList ++ Text.quoteChars name ++ "))".toList
  | .ipv4 a => "Some(Ipv4(".toList ++ a.chars ++ "))".toList
  | .ipv6 a => "Some(Ipv6(".toList ++ a.inspectChars ++ "))".toList

end Host

end SchemaSnapshot
