import SchemaSnapshot.Fetch.Error
import SchemaSnapshot.Http.Exchange

namespace SchemaSnapshot.Fetch

def defaultEndpoint : String := "http://localhost:3000"

def schemaPath : String := "/insights/schema"

structure Client where
  endpoint : String
  deriving DecidableEq, Repr

namespace Client

def schemaText (c : Client) : String :=
  c.endpoint ++ schemaPath

def schemaUrl (c : Client) : Except Error Url :=
  match Url.parse c.schemaText.toList with
  | .ok u => .ok u
  | .error e => .error (.fetch c.endpoint (.invalidUrl c.schemaText e))

def inspect (c : Client) : String :=
  "Client \x7b endpoint: " ++ Text.quoted c.endpoint ++ " \x7d"

def answerSpans (c : Client) (u : Url) (status : Http.Status) : List Log.Span :=
  [⟨Log.clientTarget, .trace, "insight_schema", [("endpoint", c.endpoint)]⟩,
   ⟨Log.clientTarget, .trace, "handle_json_response",
    [("url", u.text), ("status", status.text)]⟩]

def receivedRecord (c : Client) (outer : List Log.Span) (u : Url) (status : Http.Status)
    (body : List UInt8) : Log.Record :=
  ⟨Log.clientTarget, .debug, outer ++ c.answerSpans u status,
    "received " ++ toString body.length ++ " bytes from " ++ u.text⟩

def judge (c : Client) (u : Url) (status : Http.Status) (body : List UInt8) :
    Except Error Document :=
  if status.isSuccess then
    match Document.read body with
    | .ok d => .ok d
    | .error e => .error (.parse u e)
  else .error (.fetch c.endpoint (.status u status (String.ofList (Utf8.lossy body))))

/-- Asks for the schema; `outer` are the spans in which that happens. -/
def schema (c : Client) (outer : List Log.Span) : Interaction (Except Error Document) :=
  match c.schemaUrl with
  | .error e => .done (.error e)
  | .ok u => do
    match ← Http.get u with
    | .error f => return .error (.fetch c.endpoint (.request u f))
    | .ok (final, response) =>
      match response.body with
      | .error e => return .error (.fetch c.endpoint (.request u (.badBody final e)))
      | .ok body =>
        if response.status.isSuccess then
          Interaction.log (c.receivedRecord outer u response.status body)
        return c.judge u response.status body

end Client

end SchemaSnapshot.Fetch
