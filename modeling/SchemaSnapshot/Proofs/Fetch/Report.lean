import SchemaSnapshot.Fetch.Error
import SchemaSnapshot.Proofs.Transcript

namespace SchemaSnapshot.Fetch.Error

theorem join_joined (ts : List String) : String.join (joined ts) = ": ".intercalate ts := by
  match ts with
  | [] => rfl
  | [t] => simp [joined]
  | t :: u :: ts =>
    have ih := join_joined (u :: ts)
    rw [joined, String.join_cons] at ih
    rw [String.intercalate_cons_cons, ← ih, joined, List.flatMap_cons]
    simp [String.append_assoc]

/-- The texts of all that an error comes from, if `below` are those of the error of another
library in it and of what that one comes from. -/
def sources (e : Error) (below : List String) : List String :=
  match e with
  | .fetch _ (.invalidUrl text _) => ("invalid URL " ++ Text.quoted text) :: below
  | .fetch _ (.request u _) => ("error getting " ++ u.text) :: below
  | .fetch _ (.status u status body) =>
    ["unexpected HTTP status " ++ status.text ++ " for " ++ u.text ++ ":\n" ++ body]
  | .parse _ _ => below
  | .write _ _ => below

/-- The texts of the error of another library in an error, and of what that one comes from. -/
def below : Error → List String
  | .fetch _ (.invalidUrl _ e) => [e.message]
  | .fetch _ (.request _ f) => f.chain
  | .fetch _ (.status ..) => []
  | .parse _ e => e.chain
  | .write _ e => e.chain

/-- The text of a report. Of a text that could not be read only the error itself is told, and
not what that one comes from. -/
def reportText (e : Error) (causes : List String) : String :=
  match e with
  | .fetch endpoint _ =>
    "❌ Error fetching schema: " ++ ": ".intercalate causes ++ "\nIs cognitod running at " ++
      endpoint ++ "?\n"
  | .parse _ error => "❌ Error parsing schema JSON: " ++ error.message ++ "\n"
  | .write path _ =>
    "❌ Error writing schema to " ++ path ++ ": " ++ ": ".intercalate causes ++ "\n"

theorem chain_eq_sources (e : Error) : e.chain = e.sources e.below := by
  cases e with
  | fetch endpoint cause =>
    cases cause with
    | invalidUrl text error => rfl
    | request u failure => rfl
    | status u status body => rfl
  | parse u error => rfl
  | write path error => rfl

theorem join_reportAbove (e : Error) (causes : List String) :
    String.join (e.reportAbove causes) = e.reportText causes := by
  have hline (s : String) :
      "\n" ++ ("Is cognitod running at " ++ s) = "\nIs cognitod running at " ++ s := by
    rw [← String.append_assoc]
    rfl
  unfold reportText
  cases e with
  | fetch endpoint cause =>
    simp only [reportAbove, List.cons_append, String.join_cons, String.join_append, join_joined,
      String.join_nil, String.append_empty, String.append_assoc, hline]
  | parse u error =>
    simp only [reportAbove, String.join_cons, String.join_nil, String.append_empty,
      String.append_assoc]
  | write path error =>
    simp only [reportAbove, List.cons_append, String.join_cons, String.join_append, join_joined,
      String.join_nil, String.append_empty, String.append_assoc]

theorem received_reportAbove (e : Error) (causes : List String) (limit : Nat)
    (whenFull : WhenFull) :
    Sink.Received limit whenFull (octets (e.reportText causes))
      ((Sink.empty (some limit) whenFull).writeAll ((e.reportAbove causes).map octets)) := by
  rw [← join_reportAbove, octets_join]
  exact Sink.received_writeAll limit whenFull _

/-- A report tells all that an error comes from, from the general to the particular and each
once, whatever there is below the error of another library; only of a text that could not be
read it tells just that error. A writer that takes so many octets at most gets the first of
them; the result is good exactly if those were all, and else it is the writer's own failure. -/
theorem reportTo_limited (e : Error) (limit : Nat) (whenFull : WhenFull) :
    e.chain = e.sources e.below ∧ e.report = e.reportText e.chain ∧
    Sink.Received limit whenFull (octets e.report) (e.reportTo (.empty (some limit) whenFull)) ∧
    ∀ below, String.join (e.reportAbove (e.sources below)) = e.reportText (e.sources below) ∧
      Sink.Received limit whenFull (octets (e.reportText (e.sources below)))
        ((Sink.empty (some limit) whenFull).writeAll
          ((e.reportAbove (e.sources below)).map octets)) := by
  have hr : e.report = e.reportText e.chain := join_reportAbove e e.chain
  refine ⟨chain_eq_sources e, hr, ?_, ?_⟩
  · rw [hr]
    exact received_reportAbove e e.chain limit whenFull
  · intro below
    exact ⟨join_reportAbove e (e.sources below),
      received_reportAbove e (e.sources below) limit whenFull⟩

/-- What a text could not be read for may come from something else, which no report tells. -/
theorem report_of_unreadable_source :
    let u : Url := ⟨"http".toList, some ⟨[], none, .domain "localhost".toList, some 3000⟩,
      .rooted ["insights".toList, "schema".toList], none, none⟩
    let e : Error := .parse u ⟨.io (.described "a" ["b"]), .io, ⟨0, 0⟩⟩
    e.chain = ["a", "b"] ∧ e.report = "❌ Error parsing schema JSON: a\n" ∧
      e.report ≠ "❌ Error parsing schema JSON: " ++ ": ".intercalate e.chain ++ "\n" := by
  have hr : String.join ["❌ Error parsing schema JSON: ", "a", "\n"] =
    "❌ Error parsing schema JSON: a\n" := by decide
  exact ⟨rfl, hr, by decide⟩

end SchemaSnapshot.Fetch.Error
