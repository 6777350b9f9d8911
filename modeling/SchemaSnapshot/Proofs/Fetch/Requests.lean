import SchemaSnapshot.Proofs.Fetch.Client
import SchemaSnapshot.Proofs.Http.Redirects

namespace SchemaSnapshot.Fetch.Client

open Interaction

variable {c : Client} {u : Url}

theorem exchanges_schema_of_invalid (h : Url.parse c.schemaText.toList = .error e)
    (outer : List Log.Span) (w : World) : (c.schema outer).exchanges w = [] := by
  have hu : c.schemaUrl = .error (.fetch c.endpoint (.invalidUrl c.schemaText e)) := by
    rw [schemaUrl, h]
  rw [schema, hu]
  rfl

/-- All requests for the schema are those for its URL. -/
theorem exchanges_schema_of_valid (h : Url.parse c.schemaText.toList = .ok u)
    (outer : List Log.Span) (w : World) :
    (c.schema outer).exchanges w = (Http.get u).exchanges w := by
  rw [schema, schemaUrl_of_parse h]
  simp only [bind_eq, pure_eq, exchanges_bind]
  apply List.append_right_eq_self.mpr
  cases ((Http.get u).run w).result with
  | error f => rfl
  | ok r =>
    obtain ⟨final, response⟩ := r
    dsimp only
    cases response.body with
    | error e => rfl
    | ok body =>
      dsimp only
      split
      · rfl
      · rfl

/-- Every call ends after eleven requests at most: none without a URL, and each but the first
one right after an answer that points to its place. If all answers point on, the request has
failed. -/
theorem schema_exchanges (c : Client) (outer : List Log.Span) (w : World) :
    let call := (c.schema outer).run w
    let sent := (c.schema outer).exchanges w
    call.requests = (sent.filter fun x => x.2.isAnswered).map Prod.fst ∧
    sent.length ≤ 11 ∧
    sent.IsChain (fun x y => Http.PointsTo x y.1.url) ∧
    (∀ e, Url.parse (c.endpoint ++ "/insights/schema").toList = .error e → sent = []) ∧
    ∀ u, Url.parse (c.endpoint ++ "/insights/schema").toList = .ok u →
      (∀ x ∈ sent.head?, x.1 = .ofUrl u) ∧
      ((∀ x ∈ sent, ∃ next, Http.PointsTo x next) →
        (sent = [] ∨ sent.length = 11) ∧
          ∃ f, call.result = .error (.fetch c.endpoint (.request u f))) := by
  intro call sent
  refine ⟨requests_eq _ w, ?_⟩
  cases hu : Url.parse (c.endpoint ++ "/insights/schema").toList with
  | error e =>
    have hs : sent = [] := exchanges_schema_of_invalid hu outer w
    rw [hs]
    exact ⟨Nat.zero_le 11, .nil, fun _ _ => rfl, by simp⟩
  | ok u =>
    have hs : sent = (Http.get u).exchanges w := exchanges_schema_of_valid hu outer w
    have hr : call.result = c.verdict u ((Http.get u).run w).result :=
      run_schema_of_valid hu outer w
    obtain ⟨f, hg⟩ | hg := Http.get_cases u
    · rw [hg] at hs hr
      rw [hs, hr]
      refine ⟨Nat.zero_le 11, .nil, by simp, ?_⟩
      rintro _ ⟨⟩
      exact ⟨by simp [exchanges], fun _ => ⟨.inl rfl, f, rfl⟩⟩
    · rw [hg] at hs hr
      obtain ⟨⟨d, hd⟩, hl, hc⟩ := Http.follow_sent (Http.Request.ofUrl u).url
        (Http.Request.ofUrl u).credentials? Http.maxRedirects (.ofUrl u) w
      rw [hs]
      refine ⟨hl, hc, by simp, ?_⟩
      rintro _ ⟨⟩
      constructor
      · intro x hx
        obtain rfl := Option.some.inj (hd.symm.trans hx)
        rfl
      · intro hp
        obtain ⟨hlen, v, hv⟩ := Http.follow_of_pointsTo _ _ _ _ w hp
        rw [hr, hv]
        exact ⟨.inr hlen, _, rfl⟩

end SchemaSnapshot.Fetch.Client
