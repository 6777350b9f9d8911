import SchemaSnapshot.Log.Filter

namespace SchemaSnapshot.Log.Filter

variable {f : Filter}

/-- No directive lets anything through. -/
def Silent (f : Filter) : Prop :=
  ∀ d ∈ f.directives, d.verbosity = 0

instance : Decidable f.Silent :=
  inferInstanceAs (Decidable (∀ d ∈ f.directives, d.verbosity = 0))

theorem verbosity_pos (l : Level) : 0 < l.verbosity := by
  cases l <;> decide

theorem mem_of_decisive (ds : List Directive) : ∀ d, decisive ds = some d → d ∈ ds := by
  rw [decisive]
  apply List.foldlRecOn (motive := fun best => ∀ d, best = some d → d ∈ ds)
  · exact fun d h => nomatch h
  · intro best hb c hc d h
    split at h
    · cases h
      exact hc
    · split at h
      · cases h
        exact hc
      · exact hb d h

theorem Silent.maxVerbosity (h : f.Silent) : f.maxVerbosity = 0 := by
  rw [Filter.maxVerbosity]
  apply List.foldlRecOn (motive := fun v => v = 0)
  · rfl
  · rintro v rfl u hu
    obtain ⟨d, hd, rfl⟩ := List.mem_map.1 hu
    rw [h d hd, Nat.max_self]

theorem Silent.staticVerbosity (h : f.Silent) (target : String) (isSpan : Bool) :
    f.staticVerbosity target isSpan = 0 := by
  rw [Filter.staticVerbosity]
  split
  · rename_i hd
    exact h _ (List.mem_filter.1 (mem_of_decisive _ _ hd)).1
  · rfl

theorem Silent.openSpans (h : f.Silent) (scope : Nat) (ss : List Span) :
    f.openSpans scope ss = ([], scope) := by
  induction ss with
  | nil => rfl
  | cons s ss ih =>
    have hs : ¬ s.level.verbosity ≤ f.maxVerbosity := by
      rw [h.maxVerbosity]
      exact Nat.not_le.2 (verbosity_pos s.level)
    simp only [Filter.openSpans, hs, decide_false, Bool.false_and,
      Bool.false_eq_true, if_false, ih]

theorem Silent.shownSpans? (h : f.Silent) (r : Record) : f.shownSpans? r = none := by
  have hr := Nat.not_le.2 (verbosity_pos r.level)
  rw [Filter.shownSpans?, h.openSpans, h.staticVerbosity]
  simp only [hr, or_self, if_false]

end SchemaSnapshot.Log.Filter
