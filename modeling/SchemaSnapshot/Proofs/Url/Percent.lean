import SchemaSnapshot.Proofs.Text.Utf8
import SchemaSnapshot.Proofs.Text.Ascii
import SchemaSnapshot.Url.Percent

namespace SchemaSnapshot.Percent

variable {set : Char → Bool} {cs : List Char}

/-- Encoding writes none of the characters that it encodes. -/
structure SparesCodes (set : Char → Bool) : Prop where
  percent : set '%' = false
  digit : ∀ n < 16, set (digit n) = false

theorem sparesCodes_path : SparesCodes path := ⟨rfl, by decide⟩

theorem sparesCodes_userinfo : SparesCodes userinfo := ⟨rfl, by decide⟩

theorem sparesCodes_specialQuery : SparesCodes specialQuery := ⟨rfl, by decide⟩

theorem sparesCodes_fragment : SparesCodes fragment := ⟨rfl, by decide⟩

theorem exists_octet (b : UInt8) :
    ∃ m n, m < 16 ∧ n < 16 ∧ b.toNat = m * 16 + n ∧ octet b = ['%', digit m, digit n] := by
  have hb : b.toNat < 256 := b.toNat_lt
  exact ⟨b.toNat / 16, b.toNat % 16, by omega, by omega, by omega, rfl⟩

/-- What is encoded has none of the characters that the text has none of. -/
theorem not_of_mem_encode {p : Char → Bool} (h : SparesCodes p)
    (hcs : ∀ c ∈ cs, set c = false → p c = false) (hc : c ∈ encode set cs) : p c = false := by
  obtain ⟨d, hmem, hd⟩ := List.mem_flatMap.mp hc
  rw [encodeChar] at hd
  split at hd
  · obtain ⟨b, -, hb⟩ := List.mem_flatMap.mp hd
    obtain ⟨m, n, hm, hn, -, ho⟩ := exists_octet b
    rw [ho] at hb
    simp only [List.mem_cons, List.not_mem_nil, or_false] at hb
    obtain rfl | rfl | rfl := hb
    · exact h.percent
    · exact h.digit m hm
    · exact h.digit n hn
  · next hs =>
    obtain rfl := List.mem_singleton.mp hd
    exact hcs c hmem (by simpa using hs)

theorem set_of_mem_encode (h : SparesCodes set) (hc : c ∈ encode set cs) : set c = false :=
  not_of_mem_encode h (fun _ _ => id) hc

theorem encode_cons (h : set c = false) (cs : List Char) :
    encode set (c :: cs) = c :: encode set cs := by
  simp [encode, encodeChar, h]

theorem encode_eq_self (h : ∀ c ∈ cs, set c = false) : encode set cs = cs := by
  induction cs with
  | nil => rfl
  | cons c cs ih =>
    obtain ⟨hc, ht⟩ := List.forall_mem_cons.mp h
    rw [encode_cons hc, ih ht]

/-- The first octet of an encoded character, which is that character if it is one of ASCII. -/
theorem exists_code (h : set c = true) (cs : List Char) :
    ∃ m n r, encode set (c :: cs) = '%' :: digit m :: digit n :: r ∧ m < 16 ∧ n < 16 ∧
      (m * 16 + n < 0x80 → c.toNat = m * 16 + n) := by
  obtain ⟨b, bs, hb⟩ := List.exists_cons_of_ne_nil (Utf8.encodeChar_ne_nil c)
  obtain ⟨m, n, hm, hn, hv, ho⟩ := exists_octet b
  refine ⟨m, n, bs.flatMap octet ++ encode set cs, ?_, hm, hn, ?_⟩
  · rw [encode, List.flatMap_cons, encodeChar, if_pos h, hb, List.flatMap_cons, ho]
    rfl
  · intro hlow
    by_cases hc : c.toNat < 0x80
    · rw [Utf8.encodeChar_ascii hc] at hb
      obtain ⟨rfl, -⟩ := List.cons.inj hb
      rwa [Utf8.toNat_ofNat_of_lt (by omega)] at hv
    · have hle := Utf8.le_of_mem_encodeChar (Nat.not_lt.mp hc) (b := b) (by simp [hb])
      omega

theorem encode_eq_nil (h : encode set cs = []) : cs = [] := by
  cases cs with
  | nil => rfl
  | cons c cs =>
    cases hc : set c with
    | true =>
      obtain ⟨m, n, r, hr, -⟩ := exists_code hc cs
      rw [hr] at h
      cases h
    | false =>
      rw [encode_cons hc] at h
      cases h

theorem isVisible_of_not_fragment (h : fragment c = false) : IsVisible c := by
  simp only [fragment, control, Bool.or_eq_false_iff, decide_eq_false_iff_not, List.mem_cons,
    not_or] at h
  rw [isVisible_iff]
  have hc : c.toNat ≠ 0x20 := fun hc => h.2.1 (Char.toNat_inj.mp hc)
  omega

theorem not_mark_of_not_userinfo (h : userinfo c = false) :
    IsVisible c ∧ c ∉ ['/', '\\', '?', '#', '@', ':'] := by
  obtain ⟨hp, hm⟩ := Bool.or_eq_false_iff.mp h
  obtain ⟨hf, hm'⟩ := Bool.or_eq_false_iff.mp hp
  exact ⟨isVisible_of_not_fragment hf, by simp_all⟩

theorem not_mark_of_not_specialQuery (h : specialQuery c = false) : IsVisible c ∧ c ≠ '#' := by
  simp only [specialQuery, query, control, Bool.or_eq_false_iff, decide_eq_false_iff_not,
    List.mem_cons, not_or] at h
  obtain ⟨⟨hc, hb, -, hm, -⟩, -⟩ := h
  have hne : c.toNat ≠ 0x20 := fun he => hb (Char.toNat_inj.mp he)
  exact ⟨isVisible_iff.mpr (by omega), hm⟩

end SchemaSnapshot.Percent
