import SchemaSnapshot.Text.Utf8

namespace SchemaSnapshot.Utf8

variable {b : Nat} {acc cs ds : List Char} {bs : List UInt8} {c : Char}

@[simp] theorem encode_nil : encode [] = [] := rfl

theorem encode_cons (c : Char) (cs : List Char) :
    encode (c :: cs) = String.utf8EncodeChar c ++ encode cs := rfl

theorem encode_append (cs ds : List Char) : encode (cs ++ ds) = encode cs ++ encode ds :=
  List.flatMap_append

theorem first_one (h : b ≤ 0x7F) : first b = .char (Char.ofNat b) := by
  simp only [first, h, if_true]

theorem first_two (h : 0xC2 ≤ b) (h' : b ≤ 0xDF) :
    first b = .more (.inside 1 0x80 0xBF (b - 0xC0)) := by
  have h₁ : ¬ b ≤ 0x7F := by omega
  simp only [first, h₁, h, h', and_self, if_true, if_false]

theorem first_three (h : 0xE0 ≤ b) (h' : b ≤ 0xEF) :
    first b = .more (.inside 2 (if b = 0xE0 then 0xA0 else 0x80)
      (if b = 0xED then 0x9F else 0xBF) (b - 0xE0)) := by
  have h₁ : ¬ b ≤ 0x7F := by omega
  have h₂ : ¬ (0xC2 ≤ b ∧ b ≤ 0xDF) := by omega
  simp only [first, h₁, h₂, if_false]
  by_cases h₃ : b = 0xE0
  · simp [h₃]
  · by_cases h₄ : b = 0xED
    · simp [h₄]
    · have h₅ : 0xE1 ≤ b ∧ b ≤ 0xEF := by omega
      simp only [h₃, h₄, h₅, and_self, if_true, if_false]

theorem first_four (h : 0xF0 ≤ b) (h' : b ≤ 0xF4) :
    first b = .more (.inside 3 (if b = 0xF0 then 0x90 else 0x80)
      (if b = 0xF4 then 0x8F else 0xBF) (b - 0xF0)) := by
  have h₁ : ¬ b ≤ 0x7F := by omega
  have h₂ : ¬ (0xC2 ≤ b ∧ b ≤ 0xDF) := by omega
  have h₃ : ¬ b = 0xE0 := by omega
  have h₄ : ¬ b = 0xED := by omega
  have h₅ : ¬ (0xE1 ≤ b ∧ b ≤ 0xEF) := by omega
  simp only [first, h₁, h₂, h₃, h₄, h₅, if_false]
  by_cases h₆ : b = 0xF0
  · simp [h₆]
  · by_cases h₇ : b = 0xF4
    · simp [h₇]
    · have h₈ : 0xF1 ≤ b ∧ b ≤ 0xF3 := by omega
      simp only [h₆, h₇, h₈, and_self, if_true, if_false]

theorem first_refused (h : 0x80 ≤ b) (h' : b ≤ 0xC1 ∨ 0xF5 ≤ b) : first b = .refused := by
  have h₁ : ¬ b ≤ 0x7F := by omega
  have h₂ : ¬ (0xC2 ≤ b ∧ b ≤ 0xDF) := by omega
  have h₃ : ¬ b = 0xE0 := by omega
  have h₄ : ¬ b = 0xED := by omega
  have h₅ : ¬ (0xE1 ≤ b ∧ b ≤ 0xEF) := by omega
  have h₆ : ¬ b = 0xF0 := by omega
  have h₇ : ¬ (0xF1 ≤ b ∧ b ≤ 0xF3) := by omega
  have h₈ : ¬ b = 0xF4 := by omega
  simp only [first, h₁, h₂, h₃, h₄, h₅, h₆, h₇, h₈, if_false]

/-- The value of a character once one more of its octets is read. -/
def shift (bits : Nat) (x : UInt8) : Nat :=
  bits * 64 + (x.toNat - 0x80)

theorem step_inside (hl : low ≤ x.toNat) (hh : x.toNat ≤ high) :
    State.step (.inside owed low high bits) x =
      if owed ≤ 1 then .char (Char.ofNat (shift bits x))
      else .more (.inside (owed - 1) 0x80 0xBF (shift bits x)) := by
  rw [State.step, if_pos ⟨hl, hh⟩]
  rfl

theorem decodeFrom_inside_cons (hl : low ≤ x.toNat) (hh : x.toNat ≤ high) :
    decodeFrom (.inside owed low high bits) acc (x :: r) =
      if owed ≤ 1 then decodeFrom .start (Char.ofNat (shift bits x) :: acc) r
      else decodeFrom (.inside (owed - 1) 0x80 0xBF (shift bits x)) acc r := by
  by_cases ho : owed ≤ 1
  · simp only [decodeFrom, step_inside hl hh, ho, if_true]
  · simp only [decodeFrom, step_inside hl hh, ho, if_false]

theorem exists_cons_of_inside (h : decodeFrom (.inside owed low high bits) acc bs = some cs) :
    ∃ x r, bs = x :: r ∧ low ≤ x.toNat ∧ x.toNat ≤ high := by
  cases bs with
  | nil => simp [decodeFrom] at h
  | cons x r =>
    by_cases hx : low ≤ x.toNat ∧ x.toNat ≤ high
    · exact ⟨x, r, rfl, hx⟩
    · simp [decodeFrom, State.step, hx] at h

theorem toNat_ofNat_of_lt (h : b < 0x100) : (UInt8.ofNat b).toNat = b :=
  UInt8.toNat_ofNat_of_lt' h

theorem decodeFrom_start_cons (x : UInt8) (r : List UInt8) :
    decodeFrom .start acc (x :: r) =
      match first x.toNat with
      | .more t => decodeFrom t acc r
      | .char c => decodeFrom .start (c :: acc) r
      | .refused => none := rfl

theorem decodeFrom_encodeChar (c : Char) (acc : List Char) (r : List UInt8) :
    decodeFrom .start acc (String.utf8EncodeChar c ++ r) = decodeFrom .start (c :: acc) r := by
  have hc : Char.ofNat c.val.toNat = c := Char.ofNat_toNat c
  have hv := c.valid
  generalize hn : c.val.toNat = v at hc
  simp only [UInt32.isValidChar, hn, Nat.isValidChar] at hv
  have tail (m : Nat) : (UInt8.ofNat (m % 64 + 0x80)).toNat = m % 64 + 0x80 :=
    toNat_ofNat_of_lt (by omega)
  simp only [String.utf8EncodeChar, hn]
  by_cases h₁ : v ≤ 0x7F
  · simp only [h₁, if_true, List.cons_append, List.nil_append, decodeFrom_start_cons]
    rw [toNat_ofNat_of_lt (by omega), first_one h₁, hc]
  · by_cases h₂ : v ≤ 0x7FF
    · simp only [h₁, h₂, if_true, if_false, List.cons_append, List.nil_append,
        decodeFrom_start_cons]
      rw [toNat_ofNat_of_lt (by omega), first_two (by omega) (by omega)]
      have hs : shift (v / 64 % 32 + 0xC0 - 0xC0) (UInt8.ofNat (v % 64 + 0x80)) = v := by
        unfold shift
        rw [tail]
        omega
      simp only
      rw [decodeFrom_inside_cons (by rw [tail]; omega) (by rw [tail]; omega), hs, hc, if_pos]
      omega
    · by_cases h₃ : v ≤ 0xFFFF
      · simp only [h₁, h₂, h₃, if_true, if_false, List.cons_append, List.nil_append,
          decodeFrom_start_cons]
        rw [toNat_ofNat_of_lt (by omega), first_three (by omega) (by omega)]
        have hs : shift (shift (v / 4096 % 16 + 0xE0 - 0xE0) (UInt8.ofNat (v / 64 % 64 + 0x80)))
            (UInt8.ofNat (v % 64 + 0x80)) = v := by
          unfold shift
          rw [tail, tail]
          omega
        simp only
        rw [decodeFrom_inside_cons
          (by rw [tail]; split <;> omega) (by rw [tail]; split <;> omega),
          if_neg (by omega),
          decodeFrom_inside_cons (by rw [tail]; omega) (by rw [tail]; omega), hs, hc, if_pos]
        omega
      · simp only [h₁, h₂, h₃, if_false, List.cons_append, List.nil_append,
          decodeFrom_start_cons]
        rw [toNat_ofNat_of_lt (by omega), first_four (by omega) (by omega)]
        have hs : shift (shift (shift (v / 262144 % 8 + 0xF0 - 0xF0)
            (UInt8.ofNat (v / 4096 % 64 + 0x80))) (UInt8.ofNat (v / 64 % 64 + 0x80)))
            (UInt8.ofNat (v % 64 + 0x80)) = v := by
          unfold shift
          rw [tail, tail, tail]
          omega
        simp only
        rw [decodeFrom_inside_cons
          (by rw [tail]; split <;> omega) (by rw [tail]; split <;> omega),
          if_neg (by omega),
          decodeFrom_inside_cons (by rw [tail]; omega) (by rw [tail]; omega), if_neg (by omega),
          decodeFrom_inside_cons (by rw [tail]; omega) (by rw [tail]; omega), hs, hc, if_pos]
        omega

theorem decodeFrom_encode (cs acc : List Char) :
    decodeFrom .start acc (encode cs) = some (acc.reverse ++ cs) := by
  induction cs generalizing acc with
  | nil => simp [decodeFrom]
  | cons c cs ih => rw [encode_cons, decodeFrom_encodeChar, ih]; simp

theorem decode?_encode (cs : List Char) : decode? (encode cs) = some cs :=
  decodeFrom_encode cs []

theorem val_ofNat {v : Nat} (h : v.isValidChar) : (Char.ofNat v).val.toNat = v := by
  rw [Char.ofNat, dif_pos h]
  rfl

theorem ofNat_eq {n : Nat} {x : UInt8} (h : n = x.toNat) : UInt8.ofNat n = x := by
  rw [h, UInt8.ofNat_toNat]

theorem encodeChar_two {x y : UInt8} (hx : 0xC2 ≤ x.toNat) (hx' : x.toNat ≤ 0xDF)
    (hy : 0x80 ≤ y.toNat) (hy' : y.toNat ≤ 0xBF) :
    String.utf8EncodeChar (Char.ofNat (shift (x.toNat - 0xC0) y)) = [x, y] := by
  have hs : shift (x.toNat - 0xC0) y = (x.toNat - 0xC0) * 64 + (y.toNat - 0x80) := rfl
  have hv := val_ofNat (v := shift (x.toNat - 0xC0) y) (.inl (by omega))
  rw [String.utf8EncodeChar, hv, if_neg (by omega), if_pos (by omega),
    ofNat_eq (x := x) (by omega), ofNat_eq (x := y) (by omega)]

theorem encodeChar_three {x y z : UInt8} (hx : 0xE0 ≤ x.toNat) (hx' : x.toNat ≤ 0xEF)
    (hy : (if x.toNat = 0xE0 then 0xA0 else 0x80) ≤ y.toNat)
    (hy' : y.toNat ≤ if x.toNat = 0xED then 0x9F else 0xBF)
    (hz : 0x80 ≤ z.toNat) (hz' : z.toNat ≤ 0xBF) :
    String.utf8EncodeChar (Char.ofNat (shift (shift (x.toNat - 0xE0) y) z)) = [x, y, z] := by
  have hs : shift (shift (x.toNat - 0xE0) y) z =
      ((x.toNat - 0xE0) * 64 + (y.toNat - 0x80)) * 64 + (z.toNat - 0x80) := rfl
  generalize shift (shift (x.toNat - 0xE0) y) z = v at hs
  have hr : 0x800 ≤ v ∧ v ≤ 0xFFFF ∧ (v < 0xD800 ∨ 0xDFFF < v) ∧ 0x80 ≤ y.toNat ∧
    y.toNat ≤ 0xBF := by
    split at hy <;> split at hy' <;> omega
  have hv := val_ofNat (v := v) (by unfold Nat.isValidChar; omega)
  rw [String.utf8EncodeChar, hv, if_neg (by omega), if_neg (by omega), if_pos (by omega),
    ofNat_eq (x := x) (by omega), ofNat_eq (x := y) (by omega), ofNat_eq (x := z) (by omega)]

theorem encodeChar_four {w x y z : UInt8} (hw : 0xF0 ≤ w.toNat) (hw' : w.toNat ≤ 0xF4)
    (hx : (if w.toNat = 0xF0 then 0x90 else 0x80) ≤ x.toNat)
    (hx' : x.toNat ≤ if w.toNat = 0xF4 then 0x8F else 0xBF)
    (hy : 0x80 ≤ y.toNat) (hy' : y.toNat ≤ 0xBF) (hz : 0x80 ≤ z.toNat) (hz' : z.toNat ≤ 0xBF) :
    String.utf8EncodeChar (Char.ofNat (shift (shift (shift (w.toNat - 0xF0) x) y) z)) =
      [w, x, y, z] := by
  have hs : shift (shift (shift (w.toNat - 0xF0) x) y) z =
      (((w.toNat - 0xF0) * 64 + (x.toNat - 0x80)) * 64 + (y.toNat - 0x80)) * 64 +
        (z.toNat - 0x80) := rfl
  generalize shift (shift (shift (w.toNat - 0xF0) x) y) z = v at hs
  have hr : 0x10000 ≤ v ∧ v < 0x110000 ∧ 0x80 ≤ x.toNat ∧ x.toNat ≤ 0xBF := by
    split at hx <;> split at hx' <;> omega
  have hv := val_ofNat (v := v) (by unfold Nat.isValidChar; omega)
  rw [String.utf8EncodeChar, hv, if_neg (by omega), if_neg (by omega), if_neg (by omega),
    ofNat_eq (x := w) (by omega), ofNat_eq (x := x) (by omega), ofNat_eq (x := y) (by omega),
    ofNat_eq (x := z) (by omega)]

theorem exists_encodeChar {x : UInt8} (h : decodeFrom .start acc (x :: bs) = some cs) :
    ∃ c r, x :: bs = String.utf8EncodeChar c ++ r ∧
      decodeFrom .start (c :: acc) r = some cs := by
  rw [decodeFrom_start_cons] at h
  by_cases h₁ : x.toNat ≤ 0x7F
  · rw [first_one h₁] at h
    have hv := val_ofNat (v := x.toNat) (.inl (by omega))
    refine ⟨_, bs, ?_, h⟩
    rw [String.utf8EncodeChar, hv, if_pos h₁, ofNat_eq rfl]
    rfl
  by_cases h₂ : 0xC2 ≤ x.toNat ∧ x.toNat ≤ 0xDF
  · simp only [first_two h₂.1 h₂.2] at h
    obtain ⟨y, r, rfl, hy, hy'⟩ := exists_cons_of_inside h
    rw [decodeFrom_inside_cons hy hy', if_pos (Nat.le_refl _)] at h
    exact ⟨_, r, by rw [encodeChar_two h₂.1 h₂.2 hy hy']; rfl, h⟩
  by_cases h₃ : 0xE0 ≤ x.toNat ∧ x.toNat ≤ 0xEF
  · simp only [first_three h₃.1 h₃.2] at h
    obtain ⟨y, r, rfl, hy, hy'⟩ := exists_cons_of_inside h
    rw [decodeFrom_inside_cons hy hy', if_neg (by omega)] at h
    obtain ⟨z, r, rfl, hz, hz'⟩ := exists_cons_of_inside h
    rw [decodeFrom_inside_cons hz hz', if_pos (Nat.le_refl _)] at h
    exact ⟨_, r, by rw [encodeChar_three h₃.1 h₃.2 hy hy' hz hz']; rfl, h⟩
  by_cases h₄ : 0xF0 ≤ x.toNat ∧ x.toNat ≤ 0xF4
  · simp only [first_four h₄.1 h₄.2] at h
    obtain ⟨y, r, rfl, hy, hy'⟩ := exists_cons_of_inside h
    rw [decodeFrom_inside_cons hy hy', if_neg (by omega)] at h
    obtain ⟨z, r, rfl, hz, hz'⟩ := exists_cons_of_inside h
    rw [decodeFrom_inside_cons hz hz', if_neg (by omega)] at h
    obtain ⟨t, r, rfl, ht, ht'⟩ := exists_cons_of_inside h
    rw [decodeFrom_inside_cons ht ht', if_pos (Nat.le_refl _)] at h
    exact ⟨_, r, by rw [encodeChar_four h₄.1 h₄.2 hy hy' hz hz' ht ht']; rfl, h⟩
  rw [first_refused (by omega) (by omega)] at h
  cases h

theorem encodeChar_ne_nil (c : Char) : String.utf8EncodeChar c ≠ [] :=
  String.utf8EncodeChar_ne_nil

theorem eq_encode_of_decodeFrom (h : decodeFrom .start acc bs = some cs) :
    ∃ ds, bs = encode ds ∧ cs = acc.reverse ++ ds := by
  induction hn : bs.length using Nat.strongRecOn generalizing acc bs with
  | ind n ih =>
    cases bs with
    | nil =>
      simp only [decodeFrom, Option.some.injEq] at h
      exact ⟨[], rfl, by simp [h]⟩
    | cons x bs =>
      obtain ⟨c, r, he, hd⟩ := exists_encodeChar h
      have hl : r.length < n := by
        rw [← hn, he, List.length_append]
        have := List.length_pos_iff.2 (encodeChar_ne_nil c)
        omega
      obtain ⟨ds, hr, hc⟩ := ih _ hl hd rfl
      exact ⟨c :: ds, by rw [he, hr, encode_cons], by simpa using hc⟩

/-- The machine reads the encoded texts and nothing else. -/
theorem decode?_eq_some_iff : decode? bs = some cs ↔ bs = encode cs := by
  constructor
  · intro h
    obtain ⟨ds, rfl, rfl⟩ := eq_encode_of_decodeFrom h
    rfl
  · rintro rfl
    exact decode?_encode cs

theorem encode_injective (h : encode cs = encode ds) : cs = ds := by
  have hd := decode?_encode ds
  rw [← h, decode?_encode] at hd
  exact Option.some.inj hd

def State.TakesTails : State → Prop
  | .start => True
  | .inside _ low high _ => 0x80 ≤ low ∧ high ≤ 0xBF

theorem State.TakesTails.step {s t : State} {x : UInt8} (hs : s.TakesTails)
    (h : s.step x = .more t) : t.TakesTails := by
  cases s with
  | start =>
    simp only [State.step, first] at h
    repeat' split at h
    all_goals cases h
    all_goals exact ⟨by decide, by decide⟩
  | inside owed low high bits =>
    simp only [State.step] at h
    split at h
    · split at h <;> cases h
      exact ⟨Nat.le_refl _, Nat.le_refl _⟩
    · cases h

/-- The first octet of a character is none of those that stand inside one. -/
theorem exists_head_encodeChar (c : Char) :
    ∃ x r, String.utf8EncodeChar c = x :: r ∧ (x.toNat < 0x80 ∨ 0xBF < x.toNat) := by
  have hv := c.valid
  simp only [UInt32.isValidChar, Nat.isValidChar] at hv
  rw [String.utf8EncodeChar]
  split
  · exact ⟨_, _, rfl, .inl (by rw [toNat_ofNat_of_lt (by omega)]; omega)⟩
  · split
    · exact ⟨_, _, rfl, .inr (by rw [toNat_ofNat_of_lt (by omega)]; omega)⟩
    · split
      · exact ⟨_, _, rfl, .inr (by rw [toNat_ofNat_of_lt (by omega)]; omega)⟩
      · exact ⟨_, _, rfl, .inr (by rw [toNat_ofNat_of_lt (by omega)]; omega)⟩

theorem decodeFrom_append_encodeChar {s : State} {r : List UInt8} (hs : s.TakesTails)
    (h : decodeFrom s acc (bs ++ (String.utf8EncodeChar c ++ r)) = some cs) :
    ∃ ds, decodeFrom s acc bs = some ds ∧ decodeFrom .start (c :: ds.reverse) r = some cs := by
  induction bs generalizing s acc with
  | nil =>
    cases s with
    | start =>
      rw [List.nil_append, decodeFrom_encodeChar] at h
      exact ⟨acc.reverse, rfl, by rwa [List.reverse_reverse]⟩
    | inside owed low high bits =>
      obtain ⟨x, t, hx, hb⟩ := exists_head_encodeChar c
      rw [List.nil_append, hx] at h
      obtain ⟨y, u, hy, hl, hh⟩ := exists_cons_of_inside h
      obtain ⟨rfl, _⟩ := List.cons.inj hy
      obtain ⟨_, _⟩ := hs
      omega
  | cons x bs ih =>
    rw [List.cons_append] at h
    rw [decodeFrom] at h ⊢
    cases he : s.step x with
    | more t =>
      simp only [he] at h ⊢
      exact ih (hs.step he) h
    | char d =>
      simp only [he] at h ⊢
      exact ih trivial h
    | refused => simp [he] at h

theorem decode?_append_encodeChar {r : List UInt8}
    (h : decode? (bs ++ (String.utf8EncodeChar c ++ r)) = some cs) :
    ∃ ds es, decode? bs = some ds ∧ decode? r = some es ∧ cs = ds ++ c :: es := by
  obtain ⟨ds, hd, hr⟩ := decodeFrom_append_encodeChar (s := .start) trivial h
  obtain ⟨es, rfl, rfl⟩ := eq_encode_of_decodeFrom hr
  exact ⟨ds, es, hd, decode?_encode es, by simp⟩

theorem encodeChar_ascii (h : c.toNat < 0x80) :
    String.utf8EncodeChar c = [UInt8.ofNat c.toNat] := by
  have h' : c.val.toNat ≤ 0x7F := Nat.le_of_lt_succ h
  rw [String.utf8EncodeChar, if_pos h']
  rfl

theorem encode_ascii (h : ∀ c ∈ cs, c.toNat < 0x80) :
    encode cs = cs.map fun c => UInt8.ofNat c.toNat := by
  induction cs with
  | nil => rfl
  | cons c cs ih =>
    obtain ⟨hc, ht⟩ := List.forall_mem_cons.mp h
    rw [encode_cons, encodeChar_ascii hc, ih ht]
    rfl

theorem le_of_mem_encodeChar {b : UInt8} (hc : 0x80 ≤ c.toNat)
    (hb : b ∈ String.utf8EncodeChar c) : 0x80 ≤ b.toNat := by
  have hv : c.val.toNat < 0x110000 := by
    have h := c.valid
    simp only [UInt32.isValidChar, Nat.isValidChar] at h
    omega
  have hle : ∀ n, 0x80 ≤ n → n < 0x100 → 0x80 ≤ (UInt8.ofNat n).toNat := by
    intro n hn hn'
    rwa [toNat_ofNat_of_lt hn']
  have hc' : ¬ c.val.toNat ≤ 0x7F := Nat.not_le.mpr hc
  rw [String.utf8EncodeChar, if_neg hc'] at hb
  split at hb
  · simp only [List.mem_cons, List.not_mem_nil, or_false] at hb
    obtain rfl | rfl := hb
    · exact hle _ (by omega) (by omega)
    · exact hle _ (by omega) (by omega)
  · split at hb
    · simp only [List.mem_cons, List.not_mem_nil, or_false] at hb
      obtain rfl | rfl | rfl := hb
      · exact hle _ (by omega) (by omega)
      · exact hle _ (by omega) (by omega)
      · exact hle _ (by omega) (by omega)
    · simp only [List.mem_cons, List.not_mem_nil, or_false] at hb
      obtain rfl | rfl | rfl | rfl := hb
      · exact hle _ (by omega) (by omega)
      · exact hle _ (by omega) (by omega)
      · exact hle _ (by omega) (by omega)
      · exact hle _ (by omega) (by omega)

theorem encodeChar_ofUInt8 {b : UInt8} (h : b < 0x80) :
    String.utf8EncodeChar (Char.ofUInt8 b) = [b] := by
  rw [encodeChar_ascii (c := Char.ofUInt8 b) (UInt8.lt_iff_toNat_lt.mp h)]
  exact congrArg (fun x => [x]) UInt8.ofNat_toNat

theorem encode_ofUInt8_cons {b : UInt8} (h : b < 0x80) (cs : List Char) :
    encode (Char.ofUInt8 b :: cs) = b :: encode cs := by
  rw [encode_cons, encodeChar_ofUInt8 h]
  rfl

theorem eq_ofNat_of_ofUInt8 {b : UInt8} (h : Char.ofUInt8 b = c) : b = UInt8.ofNat c.toNat := by
  subst h
  exact UInt8.ofNat_toNat.symm

theorem ofUInt8_ofNat (h : c.toNat < 0x80) : Char.ofUInt8 (UInt8.ofNat c.toNat) = c := by
  have hc : (UInt8.ofNat c.toNat).toNat = c.toNat := toNat_ofNat_of_lt (by omega)
  exact Char.toNat_inj.mp hc

end SchemaSnapshot.Utf8
