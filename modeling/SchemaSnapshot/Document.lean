import SchemaSnapshot.Json.Reader
import SchemaSnapshot.Json.Printer
import SchemaSnapshot.Sink

namespace SchemaSnapshot

structure Document where
  value : Json.Value
  deriving Repr

namespace Document

def read (body : List UInt8) : Except Json.Error Document :=
  (Json.read body).map Document.mk

instance : BEq Document := ⟨fun a b => a.value == b.value⟩

def version? (d : Document) : Option Json.Value :=
  d.value.member? "version"

def unknownVersion : String := "unknown"

/-- A text is shown bare, any other version in its compact form. -/
def versionLabel (d : Document) : String :=
  match d.version? with
  | some (.string s) => s
  | some v => v.compact
  | none => unknownVersion

def pretty (d : Document) : String :=
  d.value.pretty

def compact (d : Document) : String :=
  d.value.compact

def writeTo (d : Document) (s : Sink) : Sink × Except IoError Unit :=
  s.writeAll ((d.value.pieces 0).map Utf8.encode)

def inspect (d : Document) : String :=
  "SchemaDocument(" ++ String.ofList d.value.inspectChars ++ ")"

end Document

end SchemaSnapshot
