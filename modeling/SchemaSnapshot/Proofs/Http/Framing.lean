import SchemaSnapshot.Proofs.Except
import SchemaSnapshot.Proofs.Http.Chunks
import SchemaSnapshot.Proofs.Text.Split

namespace SchemaSnapshot.Http

open Head (isBlank isDigit isVisible)
open Text (split trim)

namespace Head

/-- All values, and in each value all items between commas, are decimal writings of the number.
-/
structure Declare (values : List (List UInt8)) (n : Nat) : Prop where
  ne_nil : values ≠ []
  visible : ∀ v ∈ values, ∀ b ∈ v, isVisible b = true
  number : ∀ v ∈ values, ∀ item ∈ split (· = comma) v, trim isBlank item ≠ [] ∧
    (∀ b ∈ trim isBlank item, isDigit b = true) ∧ decimal (trim isBlank item) = n

/-- The last coding of the last value is that in chunks. -/
def EndsChunked (values : List (List UInt8)) : Prop :=
  ∃ vs v items item, values = vs ++ [v] ∧ (∀ b ∈ v, isVisible b = true) ∧
    split (· = comma) v = items ++ [item] ∧ (trim isBlank item).map lower = octets "chunked"

/-- How the body after a head is framed. -/
inductive Frames (h : Head) : Framing → Prop
  | bodiless : h.status ∈ [101, 204, 304] → Frames h .none
  | length : h.status ∉ [101, 204, 304] → h.values "transfer-encoding" = [] →
    Declare (h.values "content-length") n → n ≤ maxLength → Frames h (.length n)
  | untilClose : h.status ∉ [101, 204, 304] → h.values "transfer-encoding" = [] →
    h.values "content-length" = [] → Frames h .untilClose
  | chunked : h.status ∉ [101, 204, 304] → h.version = .http11 →
    EndsChunked (h.values "transfer-encoding") → Frames h .chunked
  | encoded : h.status ∉ [101, 204, 304] → h.version = .http11 →
    h.values "transfer-encoding" ≠ [] → ¬ EndsChunked (h.values "transfer-encoding") →
    Frames h .untilClose

variable {h : Head} {bs : List UInt8} {values : List (List UInt8)} {n : Nat}

theorem isBodiless_iff {s : Status} : s.isBodiless = true ↔ s ∈ [101, 204, 304] := by
  simp [Status.isBodiless, or_assoc]

theorem number?_eq_some_iff : number? bs = some n ↔
    n < UInt64.size ∧ bs ≠ [] ∧ (∀ b ∈ bs, isDigit b = true) ∧ decimal bs = n := by
  unfold number?
  rw [← decimal]
  by_cases hb : bs ≠ [] ∧ ∀ b ∈ bs, isDigit b = true
  · rw [if_neg (by simpa [not_or] using hb)]
    dsimp only
    split
    · next hlt =>
      rw [Option.some.injEq]
      constructor
      · rintro rfl
        exact ⟨hlt, hb.1, hb.2, rfl⟩
      · exact fun h => h.2.2.2
    · next hlt =>
      refine iff_of_false nofun ?_
      rintro ⟨h, -, -, rfl⟩
      exact hlt h
  · rw [if_pos (by simpa [Classical.or_iff_not_imp_left] using hb)]
    exact iff_of_false nofun fun h => hb ⟨h.2.1, h.2.2.1⟩

theorem mapM_eq_some_iff {f : List UInt8 → Option Nat} {items : List (List UInt8)}
    {ns : List Nat} :
    items.mapM f = some ns ↔ items.map f = ns.map some := by
  induction items generalizing ns with
  | nil => cases ns <;> simp
  | cons x xs ih =>
    rw [List.mapM_cons]
    cases ns with
    | nil => simp [Option.bind_eq_some_iff]
    | cons n ns => simp [Option.bind_eq_some_iff, ih]

theorem exists_mapM_iff {f : List UInt8 → Option Nat} {items : List (List UInt8)} :
    (∃ ns, items.mapM f = some ns ∧ ns ≠ [] ∧ ∀ m ∈ ns, m = n) ↔
      items ≠ [] ∧ ∀ x ∈ items, f x = some n := by
  simp only [mapM_eq_some_iff]
  constructor
  · rintro ⟨ns, hm, hne, hn⟩
    constructor
    · rintro rfl
      exact hne (List.map_eq_nil_iff.mp hm.symm)
    · intro x hx
      obtain ⟨m, hmem, hfx⟩ := List.mem_map.mp (hm ▸ List.mem_map_of_mem (f := f) hx)
      rw [← hfx, hn m hmem]
  · rintro ⟨hne, hf⟩
    refine ⟨List.replicate items.length n, ?_, by simpa using hne, by simp⟩
    rw [List.map_replicate, List.map_eq_replicate_iff.mpr hf]

theorem agreed?_eq_some_iff : agreed? ns = some n ↔ ns ≠ [] ∧ ∀ m ∈ ns, m = n := by
  cases ns with
  | nil => simp [agreed?]
  | cons m ms =>
    simp only [agreed?, Option.ite_none_right_eq_some, Option.some.injEq]
    constructor
    · rintro ⟨h, rfl⟩
      simpa using h
    · rintro ⟨-, h⟩
      obtain ⟨rfl, h⟩ := List.forall_mem_cons.mp h
      exact ⟨by simpa using h, rfl⟩

theorem length?_eq_some_iff : length? values = some n ↔ n < UInt64.size ∧ Declare values n := by
  have hitems : values.flatMap (split (· = comma)) ≠ [] ↔ values ≠ [] := by
    cases values with
    | nil => simp
    | cons v vs => simp [Text.split_ne_nil]
  have hall : values.all (·.all isVisible) = true ↔
    ∀ v ∈ values, ∀ b ∈ v, isVisible b = true := by
    simp
  rw [length?]
  by_cases hv : values.all (·.all isVisible) = true
  · rw [if_pos hv, Option.bind_eq_bind, Option.bind_eq_some_iff]
    refine (exists_congr fun ns => and_congr_right fun _ => agreed?_eq_some_iff).trans ?_
    rw [exists_mapM_iff, hitems]
    simp only [List.forall_mem_flatMap, number?_eq_some_iff]
    constructor
    · rintro ⟨hne, hn⟩
      obtain ⟨v, hmem⟩ := List.exists_mem_of_ne_nil values hne
      obtain ⟨item, hitem⟩ := List.exists_mem_of_ne_nil _ (Text.split_ne_nil (· = comma) v)
      exact ⟨(hn v hmem item hitem).1, hne, hall.mp hv, fun v hv x hx => (hn v hv x hx).2⟩
    · rintro ⟨hlt, h⟩
      exact ⟨h.ne_nil, fun v hv x hx => ⟨hlt, h.number v hv x hx⟩⟩
  · rw [if_neg hv]
    exact iff_of_false nofun fun h => hv (hall.mpr h.2.visible)

theorem isChunked_iff : isChunked values = true ↔ EndsChunked values := by
  rw [isChunked]
  split
  · next v hv =>
    obtain ⟨vs, rfl⟩ := List.getLast?_eq_some_iff.mp hv
    obtain ⟨items, item, hs⟩ := List.eq_nil_or_concat' (split (· = comma) v) |>.resolve_left
      (Text.split_ne_nil _ v)
    rw [Bool.and_eq_true, List.all_eq_true, decide_eq_true_eq, hs, List.getLast?_concat,
      Option.getD_some]
    constructor
    · rintro ⟨hvis, hc⟩
      exact ⟨vs, v, items, item, rfl, hvis, hs, hc⟩
    · rintro ⟨vs', v', items', item', hv', hvis, hs', hc⟩
      obtain ⟨-, rfl⟩ := List.append_singleton_inj.mp hv'
      obtain ⟨-, rfl⟩ := List.append_singleton_inj.mp (hs.symm.trans hs')
      exact ⟨hvis, hc⟩
  · next hv =>
    refine iff_of_false nofun ?_
    rintro ⟨vs, v, _, _, rfl, _⟩
    simp at hv

theorem frames_of_framing {f : Framing} (hf : h.framing = .ok f) : h.Frames f := by
  unfold framing at hf
  split at hf
  · next hb =>
    obtain rfl := Except.ok.inj hf
    exact .bodiless (isBodiless_iff.mp hb)
  next hb =>
  rw [isBodiless_iff] at hb
  split at hf
  · next ht hl =>
    obtain rfl := Except.ok.inj hf
    exact .untilClose hb ht hl
  · next ht _ =>
    split at hf
    · next n hn =>
      split at hf
      · next hle =>
        obtain rfl := Except.ok.inj hf
        exact .length hb ht (length?_eq_some_iff.mp hn).2 hle
      · cases hf
    · cases hf
  · next ht _ =>
    split at hf
    · cases hf
    · next hv =>
      have hv : h.version = .http11 := by
        cases h' : h.version with
        | http10 => exact absurd h' hv
        | http11 => rfl
      split at hf
      · next hc =>
        obtain rfl := Except.ok.inj hf
        exact .chunked hb hv (isChunked_iff.mp hc)
      · next hc =>
        obtain rfl := Except.ok.inj hf
        exact .encoded hb hv ht fun h => hc (isChunked_iff.mpr h)

theorem framing_of_frames {f : Framing} (hf : h.Frames f) : h.framing = .ok f := by
  have hsize : maxLength < UInt64.size := by decide
  rw [framing]
  cases hf with
  | bodiless hs => rw [if_pos (isBodiless_iff.mpr hs)]
  | @length n hs ht hd hle =>
    rw [if_neg (mt isBodiless_iff.mp hs), ht]
    obtain ⟨v, vs, hv⟩ := List.exists_cons_of_ne_nil hd.ne_nil
    have hl := length?_eq_some_iff.mpr ⟨Nat.lt_of_le_of_lt hle hsize, hd⟩
    rw [hv] at hl ⊢
    simp only [hl, if_pos hle]
  | untilClose hs ht hl => rw [if_neg (mt isBodiless_iff.mp hs), ht, hl]
  | chunked hs hv hc =>
    obtain ⟨c, cs, ht⟩ : ∃ c cs, h.values "transfer-encoding" = c :: cs := by
      obtain ⟨vs, v, _, _, ht, _⟩ := hc
      exact List.exists_cons_of_ne_nil (by simp [ht])
    have hi := isChunked_iff.mpr hc
    rw [ht] at hi
    rw [if_neg (mt isBodiless_iff.mp hs), ht]
    simp [hv, hi]
  | encoded hs hv ht hc =>
    obtain ⟨c, cs, ht⟩ := List.exists_cons_of_ne_nil ht
    have hi := mt isChunked_iff.mp hc
    rw [ht] at hi
    rw [if_neg (mt isBodiless_iff.mp hs), ht]
    simp [hv, hi]

theorem framing_eq_ok_iff {f : Framing} : h.framing = .ok f ↔ h.Frames f :=
  ⟨frames_of_framing, framing_of_frames⟩

end Head

/-- The octets after a head hold this whole body. -/
inductive Framing.Whole : Framing → List UInt8 → List UInt8 → Prop
  | none : Whole .none bs []
  | length {body : List UInt8} : Whole (.length body.length) (body ++ r) body
  | chunked : Chunks.Chunked Chunks.maxExtra bs body → Whole .chunked bs body
  | untilClose : Whole .untilClose bs bs

theorem Framing.read_eq_ok_iff {f : Framing} : f.read bs = .ok body ↔ f.Whole bs body := by
  cases f with
  | none =>
    constructor
    · intro h
      obtain rfl := Except.ok.inj h
      exact .none
    · rintro ⟨⟩
      rfl
  | length n =>
    rw [Framing.read]
    constructor
    · intro h
      split at h
      · next hn =>
        obtain rfl := Except.ok.inj h
        have hw : Framing.Whole (.length (bs.take n).length) (bs.take n ++ bs.drop n)
          (bs.take n) := .length
        rwa [List.take_append_drop, List.length_take, Nat.min_eq_left hn] at hw
      · cases h
    · rintro ⟨⟩
      simp
  | chunked =>
    constructor
    · intro h
      exact .chunked (Chunks.read_eq_ok_iff.mp h)
    · intro h
      cases h with
      | chunked h => exact Chunks.read_eq_ok_iff.mpr h
  | untilClose =>
    constructor
    · intro h
      obtain rfl := Except.ok.inj h
      exact .untilClose
    · rintro ⟨⟩
      rfl

namespace Response

variable {bs : List UInt8} {head : Head} {r : Response} {data : List UInt8}

/-- What a connection brought begins with this head, and the body after it is framed so. -/
def Begins (bs : List UInt8) (head : Head) (f : Framing) (rest : List UInt8) : Prop :=
  ∃ t, Head.Announces t head ∧ head.Frames f ∧ bs = t ++ rest

/-- What a connection brought is a whole answer with this head and this body. -/
def Whole (bs : List UInt8) (head : Head) (body : List UInt8) : Prop :=
  ∃ f rest, Begins bs head f rest ∧ f.Whole rest body

theorem begins_iff {f : Framing} :
    Begins bs head f rest ↔ Head.read bs = .ok (head, rest) ∧ head.framing = .ok f := by
  rw [Head.read_eq_ok_iff, Head.framing_eq_ok_iff]
  constructor
  · rintro ⟨t, ha, hf, hbs⟩
    exact ⟨⟨t, ha, hbs⟩, hf⟩
  · rintro ⟨⟨t, ha, hbs⟩, hf⟩
    exact ⟨t, ha, hf, hbs⟩

theorem read_eq_ok_iff :
    read bs = .ok r ↔ ∃ f rest, Begins bs r.head f rest ∧ r.body = f.read rest := by
  simp only [begins_iff]
  constructor
  · intro h
    obtain ⟨⟨head, rest⟩, hh, h⟩ := bind_eq_ok h
    obtain ⟨f, hf, h⟩ := bind_eq_ok h
    obtain rfl := Except.ok.inj h
    exact ⟨f, rest, ⟨hh, hf⟩, rfl⟩
  · rintro ⟨f, rest, ⟨hh, hf⟩, hb⟩
    simp only [read, hh, hf, ← hb, bind, Except.bind, pure, Except.pure]

end Response

end SchemaSnapshot.Http
