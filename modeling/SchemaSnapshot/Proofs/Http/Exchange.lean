import SchemaSnapshot.Proofs.Http.Framing
import SchemaSnapshot.Proofs.Http.Target
import SchemaSnapshot.World

namespace SchemaSnapshot.Http

/-- The answer to a request for `base` points somewhere, and this is what comes of its location.
-/
def Names (base : Url) (head : Head) (result : Except Url.Error Url) : Prop :=
  head.status ∈ [301, 302, 303, 307, 308] ∧ ∃ location cs,
    (head.values "location").head? = some location ∧ Utf8.decode? location = some cs ∧
      Url.join (asTarget base) cs = result

/-- What a connection brought points to a place that can be asked for. -/
def Redirects (base : Url) (bs : List UInt8) (next : Url) : Prop :=
  ∃ head f rest u, Response.Begins bs head f rest ∧ Names base head (.ok u) ∧ Target u ∧
    next = asTarget u

/-- A service is asked, and after `left` redirects at most it answers the last request with
this. -/
inductive Reaches (credentials? : Option (List UInt8)) :
    Nat → Service → Request → Request → List UInt8 → Prop
  | here : s.deliver request = (.answered bs, s') →
    Reaches credentials? left s request request bs
  | redirected : s.deliver request = (.answered bs, s') → Redirects request.url bs next →
    next.isHttp = true → Reaches credentials? left s'
      (.after request.url credentials? next) last data →
    Reaches credentials? (left + 1) s request last data

section Redirect
variable {base next u : Url} {r : Response} {head : Head}

theorem Status.isRedirect_iff {s : Status} :
    s.isRedirect = true ↔ s ∈ [301, 302, 303, 307, 308] := by
  simp [Status.isRedirect, or_assoc]

theorem redirect?_eq_some_iff : redirect? base r = some next ↔
    ∃ u, Names base r.head (.ok u) ∧ Target u ∧ next = asTarget u := by
  rw [redirect?, Response.status]
  simp only [Names, ← Status.isRedirect_iff, ← isTarget_iff]
  split
  · next hs =>
    simp only [hs, true_and, Option.bind_eq_bind, Option.bind_eq_some_iff]
    constructor
    · rintro ⟨location, hl, cs, hc, u, hu, hn⟩
      split at hn
      · next ht =>
        exact ⟨u, ⟨location, cs, hl, hc, toOption_eq_some_iff.mp hu⟩, ht,
          (Option.some.inj hn).symm⟩
      · cases hn
    · rintro ⟨u, ⟨location, cs, hl, hc, hu⟩, ht, rfl⟩
      exact ⟨location, hl, cs, hc, u, toOption_eq_some_iff.mpr hu, if_pos ht⟩
  · next hs => simp [hs]

end Redirect

section Reaches
variable {s s' : Service} {d : Delivery} {request last : Request} {response : Response}
  {next : Url} {data : List UInt8}

end Reaches

section Tells
variable {s s' : Service} {d : Delivery} {request : Request} {r : Response} {next : Url}
  {bs : List UInt8} {R : Request → List UInt8 → Prop}

theorem exists_of_redirected (h : turn start request d = .redirected next) :
    ∃ bs r, d = .answered bs ∧ Response.read bs = .ok r ∧
      redirect? request.url r = some next := by
  cases d with
  | noConnection e => cases h
  | answered bs =>
    simp only [turn] at h
    split at h
    · cases h
    · next r hr =>
      split at h
      · cases h
      · next hn =>
        obtain rfl := Turn.redirected.inj h
        exact ⟨bs, r, rfl, hr, hn⟩

theorem turn_of_redirected (start : Url) (hr : Response.read bs = .ok r)
    (hn : redirect? request.url r = some next) :
    turn start request (.answered bs) = .redirected next := by
  rw [turn]
  simp only [hr, hn]

end Tells

end SchemaSnapshot.Http
