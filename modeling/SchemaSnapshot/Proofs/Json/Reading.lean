import SchemaSnapshot.Proofs.Json.Completeness
import SchemaSnapshot.Proofs.Json.Soundness

namespace SchemaSnapshot.Json
open Grammar

/-- The reader gives a document exactly for the texts that the grammar derives within its
limits, and it is the document that the derivation writes. -/
theorem read_eq_ok_iff_text :
    read bs = .ok v ↔
      ∃ t : Text, bs = Utf8.encode t.chars ∧ t.PairsSurrogates ∧ t.SealsNumbers ∧
        t.depth ≤ maxDepth ∧ t.value = v := by
  constructor
  · intro h
    obtain ⟨t, hb, ⟨hp, hs, hd⟩, hv⟩ := exists_text_of_read h
    exact ⟨t, hb, hp, hs, hd, hv⟩
  · rintro ⟨t, rfl, hp, hs, hd, rfl⟩
    exact read_eq_ok_iff.mpr (accepts_text t ⟨hp, hs, hd⟩)

end SchemaSnapshot.Json
