import SchemaSnapshot.Fetch.Client
import SchemaSnapshot.Proofs.Text.Quoted

namespace SchemaSnapshot.Fetch.Client

variable {c c' : Client} {e : Error}

theorem exists_of_schemaUrl_error (h : c.schemaUrl = .error e) :
    ∃ reason, e = .fetch c.endpoint (.invalidUrl c.schemaText reason) := by
  unfold schemaUrl at h
  split at h
  · cases h
  · next reason _ => exact ⟨reason, (Except.error.inj h).symm⟩

theorem endpoint_of_schemaText (h : c.schemaText = c'.schemaText) : c.endpoint = c'.endpoint :=
  (String.append_left_inj schemaPath).mp h

theorem message_injective (h : "invalid URL " ++ Text.quoted c.schemaText =
    "invalid URL " ++ Text.quoted c'.schemaText) : c.endpoint = c'.endpoint := by
  apply endpoint_of_schemaText
  apply Text.quoted_injective
  exact (String.append_right_inj _).mp h

theorem staysInLine_message (s : String) :
    ∀ x ∈ ("invalid URL " ++ Text.quoted s).toList, Text.StaysInLine x := by
  intro x hx
  rw [String.toList_append, List.mem_append, Text.toList_quoted] at hx
  obtain hx | hx := hx
  · exact forall_mem_of_all rfl x hx
  · exact Text.staysInLine_of_mem_quoteChars hx

/-- An endpoint that no URL can be made of is told in quotes, with the path after it, on one
line. The first quote that is not escaped ends the message, and undoing the escapes gives the
text that was quoted, so the messages of two endpoints differ. -/
theorem invalidUrl_of_schemaUrl (h : c.schemaUrl = .error e) :
    ∃ reason q, e = .fetch c.endpoint (.invalidUrl (c.endpoint ++ "/insights/schema") reason) ∧
      e.chain = ["invalid URL " ++ q, reason.message] ∧
      (∀ x ∈ ("invalid URL " ++ q).toList, ¬ Text.IsControl x ∧ ¬ Text.IsSeparator x) ∧
      Text.unquote? q.toList = some (c.endpoint ++ "/insights/schema").toList ∧
      (∀ p r, q.toList = p ++ r → r ≠ [] → Text.unquote? p = none) ∧
      ∀ c' e', schemaUrl c' = .error e' → e'.chain.head? = e.chain.head? →
        c'.endpoint = c.endpoint := by
  obtain ⟨reason, rfl⟩ := exists_of_schemaUrl_error h
  refine ⟨reason, Text.quoted c.schemaText, rfl, rfl, staysInLine_message c.schemaText,
    Text.unquote?_quoted c.schemaText, ?_, ?_⟩
  · intro p r hq hr
    rw [Text.toList_quoted] at hq
    exact Text.unquote?_of_append hq hr
  · intro c' e' h' hm
    obtain ⟨reason', rfl⟩ := exists_of_schemaUrl_error h'
    exact message_injective (Option.some.inj hm)

/-- A quote, a line feed, what looks like an escape and a control that has no letter. -/
theorem invalidUrl_of_marks :
    (Client.mk "a\"\n\\n\x7f").schemaUrl =
      .error (.fetch "a\"\n\\n\x7f" (.invalidUrl "a\"\n\\n\x7f/insights/schema"
        .relativeWithoutBase)) ∧
    ∃ q, (Cause.invalidUrl "a\"\n\\n\x7f/insights/schema" .relativeWithoutBase).chain.head? =
        some ("invalid URL " ++ q) ∧
      Text.unquote? q.toList = some "a\"\n\\n\x7f/insights/schema".toList := by
  have h : (Client.mk "a\"\n\\n\x7f").schemaUrl =
      .error (.fetch "a\"\n\\n\x7f" (.invalidUrl "a\"\n\\n\x7f/insights/schema"
        .relativeWithoutBase)) := rfl
  obtain ⟨reason, q, -, hm, -, hq, -⟩ := invalidUrl_of_schemaUrl h
  exact ⟨h, q, congrArg List.head? hm, hq⟩

end SchemaSnapshot.Fetch.Client
