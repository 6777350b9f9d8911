import SchemaSnapshot.Text.Hex
import SchemaSnapshot.Text.Utf8

namespace SchemaSnapshot

variable {c : Char}

theorem forall_mem_of_all {P : Char → Prop} [DecidablePred P] {cs : List Char}
    (h : cs.all (fun c => decide (P c)) = true) : ∀ c ∈ cs, P c :=
  fun c hc => of_decide_eq_true (List.all_eq_true.mp h c hc)

/-- Seen when printed, and no blank of any kind. -/
def IsVisible (c : Char) : Prop := '!' ≤ c ∧ c ≤ '~'

instance : DecidablePred IsVisible := fun _ => inferInstanceAs (Decidable (_ ∧ _))

theorem isVisible_iff : IsVisible c ↔ 0x20 < c.toNat ∧ c.toNat ≤ 0x7E := by
  rw [IsVisible, Char.le_def, Char.le_def, UInt32.le_iff_toNat_le, UInt32.le_iff_toNat_le]
  exact Iff.rfl

theorem IsVisible.not_le (h : IsVisible c) : ¬ c ≤ ' ' := by
  rw [Char.le_def, UInt32.le_iff_toNat_le]
  exact Nat.not_le.mpr (isVisible_iff.mp h).1

theorem isAlphanum_iff : c.isAlphanum = true ↔
    ((65 ≤ c.toNat ∧ c.toNat ≤ 90) ∨ 97 ≤ c.toNat ∧ c.toNat ≤ 122) ∨
      48 ≤ c.toNat ∧ c.toNat ≤ 57 := by
  show ((decide ('A'.val ≤ c.val ∧ c.val ≤ 'Z'.val) ||
    decide ('a'.val ≤ c.val) && decide (c.val ≤ 'z'.val)) ||
      decide ('0'.val ≤ c.val) && decide (c.val ≤ '9'.val)) = true ↔ _
  simp only [Bool.or_eq_true, Bool.and_eq_true, decide_eq_true_eq, UInt32.le_iff_toNat_le]
  exact Iff.rfl

theorem IsVisible.of_isAlphanum (h : c.isAlphanum = true) : IsVisible c := by
  rw [isAlphanum_iff] at h
  rw [isVisible_iff]
  omega

theorem toLower_eq_self (h : ¬ (65 ≤ c.toNat ∧ c.toNat ≤ 90)) : c.toLower = c := by
  have hn : ¬ (c.val ≥ 'A'.val ∧ c.val ≤ 'Z'.val) := by
    rw [ge_iff_le, UInt32.le_iff_toNat_le, UInt32.le_iff_toNat_le]
    exact h
  exact dif_neg hn

theorem toNat_toLower (h : 65 ≤ c.toNat ∧ c.toNat ≤ 90) : c.toLower.toNat = c.toNat + 32 := by
  have hc : c.val ≥ 'A'.val ∧ c.val ≤ 'Z'.val := by
    rw [ge_iff_le, UInt32.le_iff_toNat_le, UInt32.le_iff_toNat_le]
    exact h
  have hl : c.toLower.toNat = (c.val + 32).toNat := congrArg Char.toNat (dif_pos hc)
  have hn : (c.val + 32).toNat = (c.toNat + 32) % 4294967296 := UInt32.toNat_add c.val 32
  omega

theorem toLower_cases (c : Char) :
    c.toLower = c ∨ 97 ≤ c.toLower.toNat ∧ c.toLower.toNat ≤ 122 := by
  by_cases h : 65 ≤ c.toNat ∧ c.toNat ≤ 90
  · have hl := toNat_toLower h
    omega
  · exact .inl (toLower_eq_self h)

theorem toLower_toLower (c : Char) : c.toLower.toLower = c.toLower := by
  obtain h | h := toLower_cases c
  · rw [h, h]
  · exact toLower_eq_self (by omega)

theorem Hex.value?_digitChar : ∀ d < 16, Hex.value? d.digitChar.toNat = some d := by
  decide

theorem isAlphanum_of_mem_toDigits (h : c ∈ Nat.toDigits 16 n) : c.isAlphanum = true := by
  have hd : ∀ d < 16, d.digitChar.isAlphanum = true := by
    decide
  induction n using Nat.strongRecOn with
  | _ n ih =>
    rw [Nat.toDigits_eq_if (by decide)] at h
    split at h
    · next hn =>
      rw [List.mem_singleton.mp h]
      exact hd n hn
    · obtain h | h := List.mem_append.mp h
      · exact ih (n / 16) (by omega) h
      · rw [List.mem_singleton.mp h]
        exact hd (n % 16) (by omega)

end SchemaSnapshot
