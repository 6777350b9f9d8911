import SchemaSnapshot.Proofs.Document

namespace SchemaSnapshot.Json

def State.Reaches (s : State) : List UInt8 → State → Prop
  | [], t => s = t
  | b :: bs, t => ∃ u, s.step b = .ok u ∧ u.Reaches bs t

theorem accepts_append {s : State} :
    s.Accepts (p ++ q) v ↔ ∃ t, s.Reaches p t ∧ t.Accepts q v := by
  induction p generalizing s with
  | nil =>
    constructor
    · intro h
      exact ⟨s, rfl, h⟩
    · rintro ⟨t, rfl, h⟩
      exact h
  | cons b p ih =>
    constructor
    · rintro ⟨u, hu, h⟩
      obtain ⟨t, ht, h⟩ := ih.mp h
      exact ⟨t, ⟨u, hu, ht⟩, h⟩
    · rintro ⟨t, ⟨u, hu, ht⟩, h⟩
      exact ⟨u, hu, ih.mpr ⟨t, ht, h⟩⟩

theorem State.Reaches.run {s t : State} (h : s.Reaches p t) (taken : List UInt8) :
    Json.run s taken p = Json.run t (p.reverse ++ taken) [] := by
  induction p generalizing s taken with
  | nil =>
    obtain rfl := h
    rfl
  | cons b p ih =>
    obtain ⟨u, hu, h⟩ := h
    simp only [Json.run, hu, List.reverse_cons, List.append_assoc, List.singleton_append]
    exact ih h (b :: taken)

theorem run_of_finish {s : State} (h : s.finish = .error cause) (taken : List UInt8) :
    ∃ e, run s taken [] = .error e ∧ e.category = cause.category := by
  rw [run, h]
  exact ⟨_, rfl, rfl⟩

theorem category_of_close (h : State.close stack u = .error cause) : cause.category = .eof := by
  match stack with
  | [] => cases h
  | .array _ :: _ =>
    cases h
    rfl
  | .member .. :: _ =>
    cases h
    rfl

theorem eq_nil_of_close (h : State.close stack u = .ok v) : stack = [] := by
  match stack with
  | [] => rfl
  | .array _ :: _ => cases h
  | .member .. :: _ => cases h

/-- A text that ends where it may still go on has ended too soon. Only a number in the place of
the text of a number is refused for itself, and nothing mends that. -/
theorem State.Accepts.category_of_finish {s : State} (ha : s.Accepts bs v)
    (h : s.finish = .error cause) : cause.category = .eof := by
  have hr := ha.rest
  obtain ⟨stack, phase⟩ := s
  cases phase with
  | sealedNumber scan => exact hr.elim
  | after u => exact category_of_close h
  | number scan =>
    simp only [State.finish] at h
    split at h
    · exact category_of_close h
    · cases h
      rfl
  | _ =>
    cases h
    rfl

/-- A number that is being read, and a value that is awaited, stand inside an array or object.
-/
def State.Enclosed (s : State) : Prop :=
  match s.phase with
  | .value | .number _ => s.stack ≠ []
  | _ => True

theorem State.Begins.enclosed {stack : List Frame} (h : State.Begins stack b t)
    (hn : stack = [] → NumberScan.start? b = none) : t.Enclosed := by
  cases h with
  | number hs =>
    intro hnil
    exact absurd ((hn hnil).symm.trans hs) (by simp)
  | _ => trivial

theorem State.Follows.enclosed {stack : List Frame} (h : State.Follows stack u b t) :
    t.Enclosed := by
  cases h with
  | _ => trivial

theorem keyed_enclosed (stack : List Frame) (ms : Members) (isFirst : Bool) (key : String) :
    (State.keyed stack ms isFirst key).Enclosed := by
  rw [State.keyed]
  split
  · trivial
  · trivial

theorem State.Enclosed.step {s t : State} (hs : s.Enclosed) (h : s.step b = .ok t) :
    t.Enclosed := by
  cases State.steps_of_step h with
  | blank _ _ => exact hs
  | value hb => exact hb.enclosed fun hnil => absurd hnil hs
  | firstItem hb => exact hb.enclosed fun hnil => absurd hnil (List.cons_ne_nil _ _)
  | item hb => exact hb.enclosed fun hnil => absurd hnil (List.cons_ne_nil _ _)
  | closeKey _ _ => exact keyed_enclosed _ _ _ _
  | colon => exact List.cons_ne_nil _ _
  | afterLiteral hf => exact hf.enclosed
  | number _ => exact hs
  | afterNumber _ hf => exact hf.enclosed
  | after hf => exact hf.enclosed
  -- from here the reader goes on to a phase that is neither of the two
  | _ => trivial

theorem State.Reaches.enclosed {s t : State} (h : s.Reaches p t) (hs : s.Enclosed) :
    t.Enclosed := by
  induction p generalizing s with
  | nil =>
    obtain rfl := h
    exact hs
  | cons b p ih =>
    obtain ⟨u, hu, h⟩ := h
    exact ih h (hs.step hu)

/-- The octet begins the text of a number. -/
def StartsNumber (b : UInt8) : Prop :=
  b = 0x2D ∨ isDigit b = true

theorem start?_eq_none (h : ¬ StartsNumber b) : NumberScan.start? b = none := by
  have hm : b ≠ 0x2D := fun hb => h (.inl hb)
  have hd : ¬ isDigit b = true := fun hb => h (.inr hb)
  have hz : b ≠ 0x30 := by
    rintro rfl
    exact hd rfl
  rw [NumberScan.start?, if_neg hm, if_neg hz, if_neg hd]

def lead? (bs : List UInt8) : Option UInt8 :=
  bs.find? fun b => !isBlank b

theorem enclosed_of_start (h : start.Reaches p t)
    (hp : ∀ b, lead? p = some b → ¬ StartsNumber b) :
    t = start ∨ t.Enclosed := by
  induction p with
  | nil => exact .inl h.symm
  | cons b p ih =>
    obtain ⟨u, hu, h⟩ := h
    by_cases hb : isBlank b = true
    · obtain rfl := Except.ok.inj ((step_blank rfl hb).symm.trans hu)
      apply ih h
      intro c hc
      apply hp
      rwa [lead?, List.find?_cons_of_neg (by simp [hb])]
    · have hn : ¬ StartsNumber b := by
        apply hp
        rw [lead?, List.find?_cons_of_pos (by simp [hb])]
      simp only [State.step, start, if_neg hb] at hu
      have hb := State.begins_of_begin hu
      exact .inr (h.enclosed (hb.enclosed fun _ => start?_eq_none hn))

theorem isBlank_of_accepts (h : State.Accepts ⟨[], .after u⟩ bs v) :
    ∀ b ∈ bs, isBlank b = true := by
  induction bs with
  | nil =>
    intro b hb
    cases hb
  | cons c bs ih =>
    obtain ⟨t, ht, h⟩ := h
    have hc : isBlank c = true := by
      cases State.follows_of_follow ht with
      | blank hc => exact hc
    obtain rfl := Except.ok.inj ((step_blank rfl hc).symm.trans ht)
    intro b hb
    obtain rfl | hb := List.mem_cons.mp hb
    · exact hc
    · exact ih h b hb

/-- No document ends where more than blanks is still to come. -/
theorem finish_ne_ok {s : State} (ha : s.Accepts bs v) (hs : s = start ∨ s.Enclosed)
    (hb : ∃ b ∈ bs, isBlank b = false) : s.finish ≠ .ok u := by
  intro h
  obtain ⟨b, hm, hb⟩ := hb
  obtain ⟨stack, phase⟩ := s
  cases phase with
  | number scan =>
    obtain hs | hs := hs
    · cases hs
    · simp only [State.finish] at h
      split at h
      · exact hs (eq_nil_of_close h)
      · cases h
  | after u' =>
    obtain rfl := eq_nil_of_close h
    exact absurd (isBlank_of_accepts ha b hm) (by simp [hb])
  | sealedNumber scan => exact ha.rest.elim
  | _ => cases h

theorem lead?_append (h : lead? p = some b) (q : List UInt8) : lead? (p ++ q) = some b := by
  rw [lead?, List.find?_append, ← lead?, h]
  rfl

theorem error_of_cut (h : read (p ++ q) = .ok v)
    (hn : ∀ b, lead? (p ++ q) = some b → ¬ StartsNumber b) (hq : ∃ b ∈ q, isBlank b = false) :
    ∃ e, read p = .error e ∧ e.category = .eof := by
  obtain ⟨t, hr, ha⟩ := accepts_append.mp (read_eq_ok_iff.mp h)
  have ht := enclosed_of_start hr fun b hb => hn b (lead?_append hb q)
  cases hf : t.finish with
  | ok u => exact absurd hf (finish_ne_ok ha ht hq)
  | error cause =>
    obtain ⟨e, he, hc⟩ := run_of_finish hf (p.reverse ++ [])
    exact ⟨e, (hr.run []).trans he, hc.trans (ha.category_of_finish hf)⟩

theorem category_of_accepts {s : State} (ha : s.Accepts (p ++ q) v)
    (h : run s taken p = .error e) :
    e.category = .eof := by
  obtain ⟨t, hr, ha⟩ := accepts_append.mp ha
  rw [hr.run taken] at h
  cases hf : t.finish with
  | ok u =>
    rw [run, hf] at h
    cases h
  | error cause =>
    obtain ⟨e', he, hc⟩ := run_of_finish hf (p.reverse ++ taken)
    obtain rfl := Except.error.inj (he.symm.trans h)
    exact hc.trans (ha.category_of_finish hf)

end SchemaSnapshot.Json

namespace SchemaSnapshot.Document

theorem read_eq_error_iff : read b = .error e ↔ Json.read b = .error e := by
  rw [read]
  cases Json.read b with
  | ok v => simp [Except.map]
  | error e' => simp [Except.map]

/-- A document that does not begin with a number, cut off anywhere before its last octet that is
not blank, is refused for having ended too soon; and what is refused for another reason is not
the beginning of any document. -/
theorem read_cut_off (b : List UInt8) :
    (∀ d, read b = .ok d →
      (∀ c, b.find? (fun x => !Json.isBlank x) = some c → c ≠ 0x2D ∧ Json.isDigit c = false) →
      ∀ p q, b = p ++ q → (∃ c ∈ q, Json.isBlank c = false) →
        ∃ e, read p = .error e ∧ e.category = .eof) ∧
    ∀ e, read b = .error e → e.category ≠ .eof → ∀ more d, read (b ++ more) ≠ .ok d := by
  constructor
  · rintro d hd hn p q rfl hq
    have hn' : ∀ c, Json.lead? (p ++ q) = some c → ¬ Json.StartsNumber c := by
      intro c hc hs
      obtain ⟨hm, hd⟩ := hn c hc
      obtain hs | hs := hs
      · exact hm hs
      · exact absurd hs (by simp [hd])
    obtain ⟨e, he, hc⟩ := Json.error_of_cut (read_eq_ok_iff.mp hd) hn' hq
    exact ⟨e, read_eq_error_iff.mpr he, hc⟩
  · intro e he hc more d hd
    have ha := Json.read_eq_ok_iff.mp (read_eq_ok_iff.mp hd)
    exact hc (Json.category_of_accepts ha (read_eq_error_iff.mp he))

/-- A number has no end of its own. -/
example : read (octets "12") = .ok ⟨.number "12"⟩ ∧ read (octets "1") = .ok ⟨.number "1"⟩ :=
  ⟨rfl, rfl⟩

end SchemaSnapshot.Document
