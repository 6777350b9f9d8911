import SchemaSnapshot.Http.Service
import SchemaSnapshot.Proofs.Url.Settled

namespace SchemaSnapshot.Http

open AuthorityScan (isPlain)

/-- What stands after the last `@` or `]`, from back to front. -/
def stretch (cs : List Char) : List Char :=
  cs.reverse.takeWhile fun c => c ≠ '@' && c ≠ ']'

def bracketsOf (cs : List Char) : List Char :=
  cs.filter (· ∈ ['[', ']'])

/-- User information, a host and one port at most. Colons are counted and encoded octets are
refused between the marks `@` and `]`, for what stands before them may hold anything. -/
structure IsAuthority (cs : List Char) : Prop where
  chars : ∀ c ∈ cs, isPlain c = true ∨ c ∈ ['@', ':', '[', ']', '%']
  brackets : bracketsOf cs = [] ∨ bracketsOf cs = ['[', ']']
  colons : ∀ p, p <+: cs → (stretch p).count ':' ≤ 8
  opened : ∀ p, p ++ ['['] <+: cs → '%' ∉ stretch p
  port : (stretch cs).count ':' ≤ 1
  host : '%' ∉ stretch cs ∧ cs.getLast? ≠ some '@'

/-- A URL that can be written into a request. -/
structure Target (u : Url) : Prop where
  length : u.chars.length ≤ maxTargetLength
  authority : ∀ a, u.authority? = some a →
    a.chars ≠ [] ∧ IsAuthority a.chars ∧ u.scheme.length ≤ maxSchemeLength
  text : u.authority? = none → IsAuthority u.chars

/-- What may stand at the beginning of an authority. -/
structure Fits (cs : List Char) : Prop where
  chars : ∀ c ∈ cs, isPlain c = true ∨ c ∈ ['@', ':', '[', ']', '%']
  brackets : bracketsOf cs <+: ['[', ']']
  colons : ∀ p, p <+: cs → (stretch p).count ':' ≤ 8
  opened : ∀ p, p ++ ['['] <+: cs → '%' ∉ stretch p

/-- What the scan knows of what it has seen. -/
def scanned (cs : List Char) : AuthorityScan where
  colons := (stretch cs).count ':'
  opened := '[' ∈ cs
  closed := ']' ∈ cs
  percent := '%' ∈ stretch cs
  atEnd := cs.getLast? = some '@'

/-- The character may follow what has been seen. -/
structure Admits (cs : List Char) (c : Char) : Prop where
  char : isPlain c = true ∨ c ∈ ['@', ':', '[', ']', '%']
  colon : c = ':' → (stretch cs).count ':' < 8
  openBracket : c = '[' → '%' ∉ stretch cs ∧ '[' ∉ cs
  closeBracket : c = ']' → '[' ∈ cs ∧ ']' ∉ cs

section Scan
variable {cs ds : List Char} {c : Char}

theorem stretch_concat (cs : List Char) (c : Char) :
    stretch (cs ++ [c]) = if c = '@' ∨ c = ']' then [] else c :: stretch cs := by
  rw [stretch, List.reverse_append, List.reverse_singleton, List.singleton_append,
    List.takeWhile_cons, stretch]
  by_cases h : c = '@' ∨ c = ']'
  · obtain rfl | rfl := h
    · rfl
    · rfl
  · rw [if_neg h]
    simp_all

theorem bracketsOf_concat (cs : List Char) (c : Char) :
    bracketsOf (cs ++ [c]) = bracketsOf cs ++ if c ∈ ['[', ']'] then [c] else [] := by
  rw [bracketsOf, List.filter_append, bracketsOf]
  split
  · next h => rw [List.filter_singleton, decide_eq_true h, cond_true]
  · next h => rw [List.filter_singleton, decide_eq_false h, cond_false]

theorem mem_bracketsOf {b : Char} (hb : b ∈ ['[', ']']) : b ∈ bracketsOf cs ↔ b ∈ cs := by
  simp_all [bracketsOf]

theorem bracketsOf_prefix (h : bracketsOf cs <+: ['[', ']']) :
    bracketsOf cs = [] ∨ bracketsOf cs = ['['] ∨ bracketsOf cs = ['[', ']'] := by
  simp only [List.prefix_cons_iff, List.prefix_nil] at h
  obtain h | ⟨_, h, rfl | ⟨_, rfl, ht⟩⟩ := h
  · exact .inl h
  · exact .inr (.inl h)
  · exact .inr (.inr (by rw [h, ht]))

theorem bracketsOf_concat_prefix_iff (h : bracketsOf cs <+: ['[', ']']) :
    bracketsOf (cs ++ [c]) <+: ['[', ']'] ↔
      (c = '[' → '[' ∉ cs) ∧ (c = ']' → '[' ∈ cs ∧ ']' ∉ cs) := by
  have ho : '[' ∈ bracketsOf cs ↔ '[' ∈ cs := mem_bracketsOf (by simp)
  have hc : ']' ∈ bracketsOf cs ↔ ']' ∈ cs := mem_bracketsOf (by simp)
  rw [bracketsOf_concat, ← ho, ← hc]
  by_cases hopen : c = '['
  · subst hopen
    obtain he | he | he := bracketsOf_prefix h
    all_goals simp [he]
  by_cases hclose : c = ']'
  · subst hclose
    obtain he | he | he := bracketsOf_prefix h
    all_goals simp [he]
  · simpa [hopen, hclose] using h

theorem Fits.of_append (h : Fits (cs ++ ds)) : Fits cs where
  chars c hc := h.chars c (List.mem_append_left ds hc)
  brackets := by
    have hb := h.brackets
    rw [bracketsOf, List.filter_append] at hb
    exact (List.prefix_append _ _).trans hb
  colons p hp := h.colons p (hp.trans (List.prefix_append cs ds))
  opened p hp := h.opened p (hp.trans (List.prefix_append cs ds))

theorem fits_concat_iff : Fits (cs ++ [c]) ↔ Fits cs ∧ Admits cs c := by
  constructor
  · intro h
    have hcs := h.of_append
    obtain ⟨ho, hc⟩ := (bracketsOf_concat_prefix_iff hcs.brackets).mp h.brackets
    refine ⟨hcs, h.chars c (by simp), ?_, ?_, hc⟩
    · rintro rfl
      have hcount := h.colons (cs ++ [':']) (List.prefix_refl _)
      rw [stretch_concat, if_neg (by decide), List.count_cons_self] at hcount
      omega
    · rintro rfl
      exact ⟨h.opened cs (List.prefix_refl _), ho rfl⟩
  · rintro ⟨h, ha⟩
    constructor
    · exact List.forall_mem_append.mpr ⟨h.chars, List.forall_mem_singleton.mpr ha.char⟩
    · rw [bracketsOf_concat_prefix_iff h.brackets]
      exact ⟨fun hc => (ha.openBracket hc).2, ha.closeBracket⟩
    · intro p hp
      obtain rfl | hp := List.prefix_concat_iff.mp hp
      · have hcount := h.colons cs (List.prefix_refl cs)
        rw [stretch_concat]
        split
        · exact Nat.zero_le 8
        · rw [List.count_cons]
          split
          · next hc => exact ha.colon (by simpa using hc)
          · exact hcount
      · exact h.colons p hp
    · intro p hp
      obtain he | hp := List.prefix_concat_iff.mp hp
      · obtain ⟨rfl, rfl⟩ := List.append_singleton_inj.mp he
        exact (ha.openBracket rfl).1
      · exact h.opened p hp

theorem step_scanned_iff :
    (scanned cs).step c = some s ↔ Admits cs c ∧ scanned (cs ++ [c]) = s := by
  by_cases hat : c = '@'
  · subst hat
    have ha : Admits cs '@' := ⟨by simp, by simp, by simp, by simp⟩
    simp [AuthorityScan.step, scanned, stretch_concat, ha]
  by_cases hcolon : c = ':'
  · subst hcolon
    have ha : Admits cs ':' ↔ (stretch cs).count ':' < 8 :=
      ⟨fun h => h.colon rfl, fun h => ⟨by simp, fun _ => h, by simp, by simp⟩⟩
    simp [AuthorityScan.step, scanned, stretch_concat, ha]
  by_cases hopen : c = '['
  · subst hopen
    have ha : Admits cs '[' ↔ '%' ∉ stretch cs ∧ '[' ∉ cs :=
      ⟨fun h => h.openBracket rfl, fun h => ⟨by simp, by simp, fun _ => h, by simp⟩⟩
    simp [AuthorityScan.step, scanned, stretch_concat, ha]
  by_cases hclose : c = ']'
  · subst hclose
    have ha : Admits cs ']' ↔ '[' ∈ cs ∧ ']' ∉ cs :=
      ⟨fun h => h.closeBracket rfl, fun h => ⟨by simp, by simp, by simp, fun _ => h⟩⟩
    simp [AuthorityScan.step, scanned, stretch_concat, ha]
  by_cases hpercent : c = '%'
  · subst hpercent
    have ha : Admits cs '%' := ⟨by simp, by simp, by simp, by simp⟩
    simp [AuthorityScan.step, scanned, stretch_concat, ha]
  · have ha : Admits cs c ↔ isPlain c = true :=
      ⟨fun h => by simpa [*] using h.char, fun h =>
        ⟨.inl h, by simp [*], by simp [*], by simp [*]⟩⟩
    simp [AuthorityScan.step, scanned, stretch_concat, ha, hat, hcolon, hopen, hclose, hpercent,
      Ne.symm hopen, Ne.symm hclose, Ne.symm hpercent]

theorem foldlM_step_iff :
    cs.foldlM AuthorityScan.step {} = some s ↔ Fits cs ∧ scanned cs = s := by
  induction cs using List.reverseRecOn generalizing s with
  | nil =>
    have hfits : Fits [] := ⟨by simp, by simp [bracketsOf], by simp [stretch], by simp⟩
    simp [hfits, scanned, stretch]
  | append_singleton cs c ih =>
    rw [List.foldlM_append, Option.bind_eq_bind, Option.bind_eq_some_iff]
    simp only [ih, List.foldlM_cons, List.foldlM_nil, bind_pure, fits_concat_iff]
    constructor
    · rintro ⟨_, ⟨hf, rfl⟩, hs⟩
      obtain ⟨ha, rfl⟩ := step_scanned_iff.mp hs
      exact ⟨⟨hf, ha⟩, rfl⟩
    · rintro ⟨⟨hf, ha⟩, rfl⟩
      exact ⟨_, ⟨hf, rfl⟩, step_scanned_iff.mpr ⟨ha, rfl⟩⟩

theorem isAuthority_iff : isAuthority cs = true ↔ IsAuthority cs := by
  have hscan : isAuthority cs = true ↔ Fits cs ∧ (scanned cs).isComplete = true := by
    rw [isAuthority]
    split
    · next s hs =>
      obtain ⟨hf, rfl⟩ := foldlM_step_iff.mp hs
      simp [hf]
    · next hs =>
      refine iff_of_false nofun ?_
      rintro ⟨hf, -⟩
      cases hs.symm.trans (foldlM_step_iff.mpr ⟨hf, rfl⟩)
  rw [hscan]
  have hopened : '[' ∈ bracketsOf cs ↔ '[' ∈ cs := mem_bracketsOf (by simp)
  have hclosed : ']' ∈ bracketsOf cs ↔ ']' ∈ cs := mem_bracketsOf (by simp)
  simp only [scanned, AuthorityScan.isComplete, Bool.and_eq_true, Bool.not_eq_true',
    decide_eq_false_iff_not, decide_eq_true_eq, decide_eq_decide, ← hopened, ← hclosed]
  constructor
  · rintro ⟨hf, ⟨⟨hb, hport⟩, hpercent⟩, hend⟩
    refine ⟨hf.chars, ?_, hf.colons, hf.opened, hport, hpercent, hend⟩
    obtain he | he | he := bracketsOf_prefix hf.brackets
    · exact .inl he
    · simp [he] at hb
    · exact .inr he
  · intro h
    have hf : bracketsOf cs <+: ['[', ']'] := by
      obtain he | he := h.brackets
      · rw [he]
        exact List.nil_prefix
      · exact ⟨[], by rw [he, List.append_nil]⟩
    refine ⟨⟨h.chars, hf, h.colons, h.opened⟩, ⟨⟨?_, h.port⟩, h.host.1⟩, h.host.2⟩
    obtain he | he := h.brackets
    · simp [he]
    · simp [he]

theorem isTarget_iff : isTarget u = true ↔ Target u := by
  rw [isTarget, Bool.and_eq_true, decide_eq_true_eq]
  cases ha : u.authority? with
  | none =>
    simp only [isAuthority_iff]
    exact ⟨fun h => ⟨h.1, by simp [ha], fun _ => h.2⟩, fun h => ⟨h.length, h.text ha⟩⟩
  | some a =>
    simp only [Bool.and_eq_true, decide_eq_true_eq, isAuthority_iff, and_assoc]
    constructor
    · rintro ⟨hlen, h⟩
      refine ⟨hlen, ?_, by simp [ha]⟩
      rintro _ ha'
      obtain rfl := Option.some.inj (ha.symm.trans ha')
      exact h
    · intro h
      exact ⟨h.length, h.authority a ha⟩

end Scan

section Reached
variable {scheme : Scheme} {a : Authority} {c : Char}

variable {u : Url}

end Reached

end SchemaSnapshot.Http
