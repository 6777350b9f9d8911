import SchemaSnapshot.Proofs.Document
import SchemaSnapshot.Proofs.Json.Equality

namespace SchemaSnapshot.Document
open Json

theorem read_written_eq (h : read b = .ok d) : read d.written = .ok d := by
  rw [written_eq]
  exact read_eq_ok_iff.mpr (read_pretty (read_eq_ok_iff.mp h))

/-- Different documents are written differently, since each is read back. -/
theorem eq_of_written {a b : Document} (ha : read x = .ok a) (hb : read y = .ok b)
    (h : a.written = b.written) : a = b := by
  have hread := read_written_eq ha
  rw [h, read_written_eq hb] at hread
  exact (Except.ok.inj hread).symm

/-- Documents that were read are the same if they are equal once the members of every object are
in the order of their keys, and are written the same if the order is the same from the start. -/
theorem equality_of_read (ha : read x = .ok a) (hb : read y = .ok b) (hc : read z = .ok c) :
    (a == a) = true ∧ ((a == b) = true → (b == a) = true) ∧
      ((a == b) = true → (b == c) = true → (a == c) = true) ∧
      ((a == b) = true ↔ a.value.sorted = b.value.sorted) ∧
      ((a == b) = true → (a.version? == b.version?) = true) ∧
      (a.pretty = b.pretty ↔ (a == b) = true ∧ a.value.SameOrder b.value) ∧
      (a.written = b.written ↔ (a == b) = true ∧ a.value.SameOrder b.value) := by
  have hra := readable_of_read (read_eq_ok_iff.mp ha)
  have hrb := readable_of_read (read_eq_ok_iff.mp hb)
  have hrc := readable_of_read (read_eq_ok_iff.mp hc)
  have hab : (a == b) = true ↔ a.value.sorted = b.value.sorted := Value.same_iff_sorted hra hrb
  have hba : (b == a) = true ↔ b.value.sorted = a.value.sorted := Value.same_iff_sorted hrb hra
  have hbc : (b == c) = true ↔ b.value.sorted = c.value.sorted := Value.same_iff_sorted hrb hrc
  have hac : (a == c) = true ↔ a.value.sorted = c.value.sorted := Value.same_iff_sorted hra hrc
  have hself : (a == a) = true := a.value.same_self hra
  have hsymm : (a == b) = true → (b == a) = true := fun h => hba.mpr (hab.mp h).symm
  have hpretty : a.pretty = b.pretty ↔ a = b := by
    refine ⟨fun h => eq_of_written ha hb ?_, congrArg pretty⟩
    rw [written_eq, written_eq, h]
  have hwritten : a.written = b.written ↔ a = b := ⟨eq_of_written ha hb, congrArg written⟩
  have heq : a = b ↔ (a == b) = true ∧ a.value.SameOrder b.value := by
    constructor
    · rintro rfl
      exact ⟨hself, .refl _⟩
    · rintro ⟨h, ho⟩
      exact congrArg mk (Value.eq_of_same hra hrb h ho)
  refine ⟨hself, hsymm, ?_, hab, ?_, hpretty.trans heq, hwritten.trans heq⟩
  · intro h h'
    exact hac.mpr ((hab.mp h).trans (hbc.mp h'))
  · intro h
    exact Value.member?_eq_of_same h (hsymm h) "version"

/-- The texts are `{"a":"","b":null}` and `{"b":null,"a":""}`. -/
theorem equality_of_swapped_members :
    let swapped : Document := ⟨.object [("b", .null), ("a", .string "")]⟩
    read [0x7B, 0x22, 0x61, 0x22, 0x3A, 0x22, 0x22, 0x2C, 0x22, 0x62, 0x22, 0x3A,
        0x6E, 0x75, 0x6C, 0x6C, 0x7D] = .ok ⟨.object [("a", .string ""), ("b", .null)]⟩ ∧
      read [0x7B, 0x22, 0x62, 0x22, 0x3A, 0x6E, 0x75, 0x6C, 0x6C, 0x2C, 0x22, 0x61,
        0x22, 0x3A, 0x22, 0x22, 0x7D] = .ok swapped ∧
      Value.sorted (.object [("a", .string ""), ("b", .null)]) = swapped.value.sorted ∧
      pretty ⟨.object [("a", .string ""), ("b", .null)]⟩ ≠ swapped.pretty := by
  intro swapped
  have ha : read [0x7B, 0x22, 0x61, 0x22, 0x3A, 0x22, 0x22, 0x2C, 0x22, 0x62, 0x22,
      0x3A, 0x6E, 0x75, 0x6C, 0x6C, 0x7D] =
      .ok ⟨.object [("a", .string ""), ("b", .null)]⟩ := rfl
  have hb : read [0x7B, 0x22, 0x62, 0x22, 0x3A, 0x6E, 0x75, 0x6C, 0x6C, 0x2C, 0x22,
      0x61, 0x22, 0x3A, 0x22, 0x22, 0x7D] = .ok swapped := rfl
  obtain ⟨_, _, _, hsorted, _, hpretty, _⟩ := equality_of_read ha hb hb
  refine ⟨ha, hb, hsorted.mp rfl, fun h => ?_⟩
  have hkeys := (hpretty.mp h).2 [] _ _ rfl rfl
  exact absurd hkeys (by decide)

end SchemaSnapshot.Document
