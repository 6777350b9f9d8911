import SchemaSnapshot.Http.Exchange

namespace SchemaSnapshot.Http

structure Service where
  port : Nat
  /-- What the next requests get, octet for octet; the last answer is given again and again. -/
  answers : List (List UInt8)
  deriving DecidableEq, Repr

namespace Service

def loopback : Ipv4 := ⟨0x7F000001⟩

/-- The name of that machine; no other name is known. -/
def loopbackName : List Char := "localhost".toList

inductive Reach where
  | here
  | nowhere (error : ConnectError)
  deriving DecidableEq, Repr

def reach : Host → Reach
  | .domain n => if n = loopbackName then .here else .nowhere .unknownName
  | .ipv4 a => if a = loopback then .here else .nowhere .unreachable
  | _ => .nowhere .unreachable

def next : List (List UInt8) → Option (List UInt8 × List (List UInt8))
  | [] => none
  | [a] => some (a, [a])
  | a :: r => some (a, r)

/-- Nothing listens where there are no answers, and the service does not speak the secure
protocol. -/
def deliver (s : Service) (request : Request) : Delivery × Service :=
  match reach request.url.host with
  | .nowhere e => (.noConnection e, s)
  | .here =>
    match next s.answers with
    | none => (.noConnection .refused, s)
    | some (a, rest) =>
      if request.url.portOrDefault? ≠ some s.port then (.noConnection .refused, s)
      else if request.url.scheme = "https".toList then (.noConnection .handshake, s)
      else (.answered a, { s with answers := rest })

def isServed (s : Service) (request : Request) : Bool :=
  match (s.deliver request).1 with
  | .answered _ => true
  | .noConnection _ => false

end Service

end SchemaSnapshot.Http
