import SchemaSnapshot.Proofs.Fetch.Client
import SchemaSnapshot.Proofs.Fetch.Report
import SchemaSnapshot.Proofs.Json.Position

namespace SchemaSnapshot.Fetch.Client

variable {c : Client} {u u' : Url} {status : Http.Status}

theorem judge_eq_parse_iff :
    c.judge u status body = .error (.parse u' e) ↔
      (200 ≤ status ∧ status ≤ 299) ∧ u' = u ∧ Document.read body = .error e := by
  constructor
  · intro h
    by_cases hs : 200 ≤ status ∧ status ≤ 299
    · cases hr : Document.read body with
      | ok d =>
        rw [judge_of_read hs hr] at h
        cases h
      | error e' =>
        rw [judge_of_unreadable hs hr] at h
        cases h
        exact ⟨hs, rfl, rfl⟩
    · rw [judge_of_failure hs] at h
      cases h
  · rintro ⟨hs, rfl, hr⟩
    exact judge_of_unreadable hs hr

theorem report_parse (u : Url) (h : e.position.IsAt body i) :
    (Error.parse u e).report = "❌ Error parsing schema JSON: " ++ e.cause.text ++ " at line " ++
      toString e.position.line ++ " column " ++ toString e.position.column ++ "\n" := by
  have hr : (Error.parse u e).report = "❌ Error parsing schema JSON: " ++ e.message ++ "\n" :=
    Error.join_reportAbove (.parse u e) e.chain
  have hline : e.position.line ≠ 0 := by
    rw [h.line]
    exact Nat.ne_of_gt (Nat.lt_of_lt_of_le Nat.one_pos (Nat.le_add_right 1 _))
  rw [hr, Json.Error.message, if_neg hline]
  simp only [String.append_assoc]

/-- A body that could not be read leaves nothing untold in the report. -/
theorem report_of_unreadable (h : Document.read body = .error e) (u : Url) :
    (Error.parse u e).report =
      "❌ Error parsing schema JSON: " ++ ": ".intercalate (Error.parse u e).chain ++ "\n" := by
  have hc : (Error.parse u e).chain = [e.message] :=
    Json.chain_of_read (Document.read_eq_error_iff.mp h)
  rw [hc, String.intercalate_singleton]
  exact Error.join_reportAbove (.parse u e) e.chain

/-- A body in which no object begins with the key of a number is refused at one of its own
places, and at its end if it has ended too soon. The report of a body that could not be read
tells the line and column of that place. -/
theorem place_of_unreadable (hn : ¬ Json.BeginsObject Json.numberKey body)
    (h : Document.read body = .error e) :
    ∃ i, e.position.IsAt body i ∧ (e.category = .eof → i = body.length) ∧
      (∀ (c : Client) (u u' : Url) (status : Http.Status) (e' : Json.Error),
        c.judge u status body = .error (.parse u' e') ↔
          (200 ≤ status ∧ status ≤ 299) ∧ u' = u ∧ e' = e) ∧
      ∀ u, (Error.parse u e).report = "❌ Error parsing schema JSON: " ++ e.cause.text ++
        " at line " ++ toString e.position.line ++ " column " ++ toString e.position.column ++
          "\n" := by
  obtain ⟨i, hi, heof⟩ := Json.exists_place_of_read (Document.read_eq_error_iff.mp h) hn
  refine ⟨i, hi, heof, ?_, fun u => report_parse u hi⟩
  intro c u u' status e'
  rw [judge_eq_parse_iff, h, Except.error.injEq]
  exact ⟨fun ⟨hs, hu, he⟩ => ⟨hs, hu, he.symm⟩, fun ⟨hs, hu, he⟩ => ⟨hs, hu, he.symm⟩⟩

/-- The body ends after a comma and a line feed, in an array. -/
theorem place_of_open_array :
    Document.read (octets "[\x7b\x7d,\n") = .error ⟨.unfinishedValue, .eof, ⟨2, 0⟩⟩ ∧
      Json.Position.IsAt ⟨2, 0⟩ (octets "[\x7b\x7d,\n") 5 ∧
      ∀ u, (Client.mk "").judge u 200 (octets "[\x7b\x7d,\n") =
        .error (.parse u ⟨.unfinishedValue, .eof, ⟨2, 0⟩⟩) := by
  have h : Document.read (octets "[\x7b\x7d,\n") =
    .error ⟨.unfinishedValue, .eof, ⟨2, 0⟩⟩ := rfl
  have hn : ¬ Json.BeginsObject Json.numberKey (octets "[\x7b\x7d,\n") := by
    intro hk
    exact absurd hk.colon_mem (by decide)
  obtain ⟨i, hi, heof, hj, -⟩ := place_of_unreadable hn h
  obtain rfl : i = 5 := heof rfl
  exact ⟨h, hi, fun u => (hj _ u u 200 _).mpr ⟨by decide, rfl, rfl⟩⟩

end SchemaSnapshot.Fetch.Client
