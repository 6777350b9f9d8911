import SchemaSnapshot.Fetch.Client
import SchemaSnapshot.Proofs.Http.Exchange
import SchemaSnapshot.Proofs.Interaction
import SchemaSnapshot.Proofs.Text.Utf8

namespace SchemaSnapshot.Fetch.Client

open Interaction

variable {c : Client} {outer : List Log.Span} {w : World} {u : Url}

theorem isSuccess_iff {status : Http.Status} :
    status.isSuccess = true ↔ 200 ≤ status ∧ status ≤ 299 := by
  rw [Http.Status.isSuccess, Bool.and_eq_true, decide_eq_true_eq, decide_eq_true_eq]

theorem judge_of_read {status : Http.Status} (h : 200 ≤ status ∧ status ≤ 299)
    (hd : Document.read body = .ok d) : c.judge u status body = .ok d := by
  rw [judge, if_pos (isSuccess_iff.mpr h), hd]

theorem judge_of_unreadable {status : Http.Status} (h : 200 ≤ status ∧ status ≤ 299)
    (he : Document.read body = .error e) : c.judge u status body = .error (.parse u e) := by
  rw [judge, if_pos (isSuccess_iff.mpr h), he]

theorem judge_of_failure {status : Http.Status} (h : ¬ (200 ≤ status ∧ status ≤ 299))
    (c : Client) (u : Url) (body : List UInt8) :
    c.judge u status body =
      .error (.fetch c.endpoint (.status u status (String.ofList (Utf8.lossy body)))) := by
  rw [judge, if_neg fun hs => h (isSuccess_iff.mp hs)]

theorem schemaUrl_of_parse (h : Url.parse c.schemaText.toList = .ok u) :
    c.schemaUrl = .ok u := by
  rw [schemaUrl, h]

/-- What becomes of the outcome of an exchange. -/
def verdict (c : Client) (u : Url) (outcome : Except Http.Failure (Url × Http.Response)) :
    Except Error Document :=
  match outcome with
  | .error f => .error (.fetch c.endpoint (.request u f))
  | .ok (final, response) =>
    match response.body with
    | .error e => .error (.fetch c.endpoint (.request u (.badBody final e)))
    | .ok body => c.judge u response.status body

section Verdict
variable {outcome : Except Http.Failure (Url × Http.Response)}
  {R : Http.Request → List UInt8 → Prop}

end Verdict

theorem run_schema_of_valid (h : Url.parse c.schemaText.toList = .ok u)
    (outer : List Log.Span) (w : World) :
    ((c.schema outer).run w).result = c.verdict u ((Http.get u).run w).result := by
  rw [schema, schemaUrl_of_parse h]
  simp only [bind_eq, pure_eq, run_bind, verdict]
  cases ((Http.get u).run w).result with
  | error f => rfl
  | ok r =>
    obtain ⟨final, response⟩ := r
    dsimp only
    cases response.body with
    | error e => rfl
    | ok body =>
      dsimp only
      split
      · rfl
      · rfl

end SchemaSnapshot.Fetch.Client
