import Mathlib.Data.List.Chain
import SchemaSnapshot.Proofs.Except
import SchemaSnapshot.Proofs.Http.Exchange
import SchemaSnapshot.Proofs.Interaction

namespace SchemaSnapshot.Http

/-- The answer to a request points to this place, and it can be asked there. -/
def PointsTo (x : Request × Delivery) (next : Url) : Prop :=
  ∃ bs response location cs u,
    x.2 = .answered bs ∧ Response.read bs = .ok response ∧
    response.status ∈ [301, 302, 303, 307, 308] ∧
    (response.head.values "location").head? = some location ∧ Utf8.decode? location = some cs ∧
    Url.join (asTarget x.1.url) cs = .ok u ∧ isTarget u = true ∧ next = asTarget u ∧
    next.isHttp = true

theorem pointsTo_iff (start : Url) {request : Request} {d : Delivery} :
    PointsTo (request, d) next ↔ turn start request d = .redirected next ∧
      next.isHttp = true := by
  constructor
  · rintro ⟨bs, response, location, cs, u, rfl, hr, hs, hl, hc, hu, ht, hn, hh⟩
    have hd := redirect?_eq_some_iff.mpr ⟨u, ⟨hs, location, cs, hl, hc, hu⟩,
      isTarget_iff.mp ht, hn⟩
    exact ⟨turn_of_redirected start hr hd, hh⟩
  · rintro ⟨ht, hh⟩
    obtain ⟨bs, response, rfl, hr, hd⟩ := exists_of_redirected ht
    obtain ⟨u, ⟨hs, location, cs, hl, hc, hu⟩, ht, hn⟩ := redirect?_eq_some_iff.mp hd
    exact ⟨bs, response, location, cs, u, rfl, hr, hs, hl, hc, hu, isTarget_iff.mpr ht, hn, hh⟩

theorem not_pointsTo_of_turn (start : Url) {request : Request} {d : Delivery}
    (h : ∀ next, turn start request d ≠ .redirected next) (next : Url) :
    ¬ PointsTo (request, d) next := by
  intro hp
  exact h next ((pointsTo_iff start).mp hp).1

/-- What is asked first, and what comes of the answer: it points nowhere, no redirects are left,
or the next place is asked. -/
theorem follow_cases (start : Url) (credentials? : Option (List UInt8)) (left : Nat)
    (request : Request) (w : World) :
    ∃ d,
      ((follow start credentials? left request).exchanges w = [(request, d)] ∧
        ∀ next, ¬ PointsTo (request, d) next) ∨
      ((follow start credentials? left request).exchanges w = [(request, d)] ∧ left = 0 ∧
        ∃ u, ((follow start credentials? left request).run w).result =
          .error (.tooManyRedirects u)) ∨
      ∃ next k w', PointsTo (request, d) next ∧ left = k + 1 ∧
        (follow start credentials? left request).exchanges w = (request, d) ::
          (follow start credentials? k (.after request.url credentials? next)).exchanges w' ∧
        ((follow start credentials? left request).run w).result =
          ((follow start credentials? k
            (.after request.url credentials? next)).run w').result := by
  rcases hd : w.service.deliver request with ⟨d, s'⟩
  refine ⟨d, ?_⟩
  cases left with
  | zero =>
    rw [follow, Interaction.exchanges, Interaction.run, hd]
    dsimp only
    cases ht : turn start request d with
    | failed f => exact .inl ⟨rfl, not_pointsTo_of_turn start (by simp [ht])⟩
    | final r => exact .inl ⟨rfl, not_pointsTo_of_turn start (by simp [ht])⟩
    | redirected next => exact .inr (.inl ⟨rfl, rfl, _, rfl⟩)
  | succ k =>
    rw [follow, Interaction.exchanges, Interaction.run, hd]
    dsimp only
    cases ht : turn start request d with
    | failed f => exact .inl ⟨rfl, not_pointsTo_of_turn start (by simp [ht])⟩
    | final r => exact .inl ⟨rfl, not_pointsTo_of_turn start (by simp [ht])⟩
    | redirected next =>
      dsimp only
      split
      · next hh =>
        exact .inr (.inr ⟨next, k, _, (pointsTo_iff start).mpr ⟨ht, hh⟩, rfl, rfl, rfl⟩)
      · next hh =>
        refine .inl ⟨rfl, ?_⟩
        intro next' hp
        obtain ⟨hr, hh'⟩ := (pointsTo_iff start).mp hp
        obtain rfl := Turn.redirected.inj (ht.symm.trans hr)
        exact hh hh'

/-- What is sent for a request: itself first, then as long as answers point on and redirects are
left, one request for each place pointed to. -/
structure Sent (request : Request) (left : Nat) (sent : List (Request × Delivery)) : Prop where
  first : ∃ d, sent.head? = some (request, d)
  length_le : sent.length ≤ left + 1
  chain : sent.IsChain fun x y => PointsTo x y.1.url

theorem follow_sent (start : Url) (credentials? : Option (List UInt8)) (left : Nat)
    (request : Request) (w : World) :
    Sent request left ((follow start credentials? left request).exchanges w) := by
  induction left generalizing request w with
  | zero =>
    obtain ⟨d, ⟨he, _⟩ | ⟨he, _⟩ | ⟨_, _, _, _, hk, _⟩⟩ :=
      follow_cases start credentials? 0 request w
    · rw [he]
      exact ⟨⟨d, rfl⟩, Nat.le_refl 1, .singleton _⟩
    · rw [he]
      exact ⟨⟨d, rfl⟩, Nat.le_refl 1, .singleton _⟩
    · cases hk
  | succ left ih =>
    obtain ⟨d, ⟨he, _⟩ | ⟨_, hk, _⟩ | ⟨next, k, w', hp, hk, he, _⟩⟩ :=
      follow_cases start credentials? (left + 1) request w
    · rw [he]
      exact ⟨⟨d, rfl⟩, by simp, .singleton _⟩
    · cases hk
    · obtain rfl := Nat.succ.inj hk
      have hs := ih (.after request.url credentials? next) w'
      rw [he]
      refine ⟨⟨d, rfl⟩, Nat.succ_le_succ hs.length_le, List.isChain_cons.mpr ⟨?_, hs.chain⟩⟩
      intro y hy
      obtain ⟨d', hd'⟩ := hs.first
      obtain rfl := Option.some.inj (hd'.symm.trans hy)
      exact hp

/-- If every answer points on, all redirects are used up. -/
theorem follow_of_pointsTo (start : Url) (credentials? : Option (List UInt8)) (left : Nat)
    (request : Request) (w : World)
    (h : ∀ x ∈ (follow start credentials? left request).exchanges w, ∃ next, PointsTo x next) :
    ((follow start credentials? left request).exchanges w).length = left + 1 ∧
      ∃ u, ((follow start credentials? left request).run w).result =
        .error (.tooManyRedirects u) := by
  induction left generalizing request w with
  | zero =>
    obtain ⟨d, ⟨he, hn⟩ | ⟨he, _, hr⟩ | ⟨_, _, _, _, hk, _⟩⟩ :=
      follow_cases start credentials? 0 request w
    · obtain ⟨next, hp⟩ := h (request, d) (by simp [he])
      exact absurd hp (hn next)
    · exact ⟨by rw [he]; rfl, hr⟩
    · cases hk
  | succ left ih =>
    obtain ⟨d, ⟨he, hn⟩ | ⟨_, hk, _⟩ | ⟨next, k, w', _, hk, he, hr⟩⟩ :=
      follow_cases start credentials? (left + 1) request w
    · obtain ⟨next, hp⟩ := h (request, d) (by simp [he])
      exact absurd hp (hn next)
    · cases hk
    · obtain rfl := Nat.succ.inj hk
      rw [he] at h
      obtain ⟨hl, u, hu⟩ := ih (.after request.url credentials? next) w'
        fun x hx => h x (List.mem_cons_of_mem _ hx)
      rw [he, hr]
      exact ⟨congrArg Nat.succ hl, u, hu⟩

theorem get_cases (u : Url) :
    (∃ f, get u = .done (.error f)) ∨
      get u = follow (Request.ofUrl u).url (Request.ofUrl u).credentials? maxRedirects
        (.ofUrl u) := by
  rw [get]
  split
  · exact .inl ⟨_, rfl⟩
  · split
    · exact .inl ⟨_, rfl⟩
    · exact .inr rfl

theorem first_of_get {u : Url} {w : World} (hx : x ∈ ((get u).exchanges w).head?) :
    x.1 = .ofUrl u := by
  obtain ⟨f, hg⟩ | hg := get_cases u
  · rw [hg] at hx
    cases hx
  · obtain ⟨⟨d, hd⟩, -, -⟩ := follow_sent (Request.ofUrl u).url (Request.ofUrl u).credentials?
      maxRedirects (.ofUrl u) w
    rw [hg] at hx
    obtain rfl := Option.some.inj (hd.symm.trans hx)
    rfl

theorem exchanges_get_ne_nil {u : Url} (hu : u.isHttp = true)
    (ht : isTarget (Request.ofUrl u).url = true) (w : World) : (get u).exchanges w ≠ [] := by
  have hg : get u = follow (Request.ofUrl u).url (Request.ofUrl u).credentials? maxRedirects
      (.ofUrl u) := by
    simp [get, hu, ht]
  obtain ⟨⟨d, hd⟩, -, -⟩ := follow_sent (Request.ofUrl u).url (Request.ofUrl u).credentials?
    maxRedirects (.ofUrl u) w
  rw [hg]
  intro hn
  rw [hn] at hd
  cases hd

end SchemaSnapshot.Http
