import Mathlib.Data.List.Infix
import SchemaSnapshot.Sink

namespace SchemaSnapshot.Sink

variable {s t u : Sink} {bs : List UInt8} {ps : List (List UInt8)} {l : Nat}

/-- No more was taken than may be. -/
def Within (s : Sink) : Prop :=
  ∀ l, s.limit = some l → s.taken.length ≤ l

theorem within_of_le (m : WhenFull) (hb : bs.length ≤ l) : Within ⟨some l, m, bs⟩ := by
  rintro _ ⟨⟩
  exact hb

theorem write_of_le (h : s.limit = some l) (hb : s.taken.length + bs.length ≤ l) :
    s.write bs = ({ s with taken := s.taken ++ bs }, .ok ()) := by
  have hp : bs.take (l - s.taken.length) = bs := List.take_of_length_le (by omega)
  simp only [write, part, hasRoom, h, hp, hb, decide_true, if_true]

theorem write_of_lt (h : s.limit = some l) (hw : s.Within)
    (hb : l < s.taken.length + bs.length) :
    s.write bs = ({ s with taken := (s.taken ++ bs).take l }, .error s.whenFull.error) := by
  have ht : s.taken.take l = s.taken := List.take_of_length_le (hw l h)
  have hr : ¬ s.taken.length + bs.length ≤ l := by omega
  simp only [write, part, hasRoom, h, hr, decide_false, Bool.false_eq_true, if_false,
    List.take_append, ht]

theorem writeAll_of_le (h : s.limit = some l) (hb : s.taken.length + ps.flatten.length ≤ l) :
    s.writeAll ps = ({ s with taken := s.taken ++ ps.flatten }, .ok ()) := by
  induction ps generalizing s with
  | nil => rw [writeAll, List.flatten_nil, List.append_nil]
  | cons p ps ih =>
    rw [List.flatten_cons, List.length_append] at hb
    have hp : s.write p = ({ s with taken := s.taken ++ p }, .ok ()) := write_of_le h (by omega)
    have hi := @ih { s with taken := s.taken ++ p } h (by rw [List.length_append]; omega)
    rw [writeAll, hp]
    dsimp only
    rw [hi, List.flatten_cons, List.append_assoc]

/-- The first piece that does not fit is the last one that anything is taken of. -/
theorem writeAll_of_lt (h : s.limit = some l) (hw : s.Within)
    (hb : l < s.taken.length + ps.flatten.length) :
    s.writeAll ps =
      ({ s with taken := (s.taken ++ ps.flatten).take l }, .error s.whenFull.error) := by
  induction ps generalizing s with
  | nil =>
    have hl := hw l h
    rw [List.flatten_nil, List.length_nil] at hb
    omega
  | cons p ps ih =>
    rw [List.flatten_cons, List.length_append] at hb
    by_cases hp : s.taken.length + p.length ≤ l
    · have hw' : Within { s with taken := s.taken ++ p } := by
        intro k hk
        obtain rfl := Option.some.inj (h.symm.trans hk)
        rwa [List.length_append]
      have hi := @ih { s with taken := s.taken ++ p } h hw' (by rw [List.length_append]; omega)
      rw [writeAll, write_of_le h hp]
      dsimp only
      rw [hi, List.flatten_cons, List.append_assoc]
    · have hlen : l ≤ (s.taken ++ p).length := by
        rw [List.length_append]
        omega
      rw [writeAll, write_of_lt h hw (by omega)]
      dsimp only
      rw [List.flatten_cons, ← List.append_assoc, List.take_append_of_le_length hlen]

theorem writeAll_of_unlimited (w : WhenFull) (taken : List UInt8) (ps : List (List UInt8)) :
    Sink.writeAll ⟨none, w, taken⟩ ps = (⟨none, w, taken ++ ps.flatten⟩, .ok ()) := by
  induction ps generalizing taken with
  | nil => rw [Sink.writeAll, List.flatten_nil, List.append_nil]
  | cons p ps ih =>
    have hw : Sink.write ⟨none, w, taken⟩ p = (⟨none, w, taken ++ p⟩, .ok ()) := rfl
    rw [Sink.writeAll, hw]
    dsimp only
    rw [ih, List.flatten_cons, List.append_assoc]

/-- How a text is cut into pieces makes no difference. -/
theorem writeAll_eq_write (hw : s.Within) (ps : List (List UInt8)) :
    s.writeAll ps = s.write ps.flatten := by
  obtain ⟨limit, m, taken⟩ := s
  cases limit with
  | none => exact writeAll_of_unlimited m taken ps
  | some l =>
    by_cases hb : taken.length + ps.flatten.length ≤ l
    · exact (writeAll_of_le rfl hb).trans (write_of_le rfl hb).symm
    · have hl := Nat.not_le.mp hb
      exact (writeAll_of_lt rfl hw hl).trans (write_of_lt rfl hw hl).symm

/-- A writer that takes so many octets at most got a text: as much of it as fits was taken, and
that all of it was taken is what the result says. -/
structure Received (limit : Nat) (whenFull : WhenFull) (text : List UInt8)
    (written : Sink × Except IoError Unit) : Prop where
  taken : written.1.taken = text.take limit
  ok_iff : written.2 = .ok () ↔ text.length ≤ limit
  error_iff : written.2 = .error whenFull.error ↔ limit < text.length

theorem received_writeAll (limit : Nat) (m : WhenFull) (ps : List (List UInt8)) :
    Received limit m ps.flatten ((empty (some limit) m).writeAll ps) := by
  have hw : (empty (some limit) m).Within := within_of_le m (Nat.zero_le limit)
  rw [writeAll_eq_write hw]
  constructor
  · simp [write, part, empty]
  · simp [write, hasRoom, empty]
  · simp [write, hasRoom, empty]

/-- What a writer can become by being written to. -/
structure Grows (s t : Sink) : Prop where
  limit : t.limit = s.limit
  taken : s.taken <+: t.taken
  within : s.Within → t.Within

theorem Grows.refl (s : Sink) : s.Grows s :=
  ⟨rfl, List.prefix_refl _, id⟩

theorem Grows.trans (h : s.Grows t) (h' : t.Grows u) : s.Grows u :=
  ⟨h'.limit.trans h.limit, h.taken.trans h'.taken, fun hw => h'.within (h.within hw)⟩

theorem grows_write (s : Sink) (bs : List UInt8) : s.Grows (s.write bs).1 := by
  refine ⟨rfl, List.prefix_append _ _, ?_⟩
  intro hw l (hl : s.limit = some l)
  have hs := hw l hl
  simp only [write, part, hl, List.length_append, List.length_take]
  omega

theorem grows_writeAll (s : Sink) (ps : List (List UInt8)) : s.Grows (s.writeAll ps).1 := by
  induction ps generalizing s with
  | nil => exact .refl s
  | cons p ps ih =>
    have hp := grows_write s p
    rw [writeAll]
    rcases hr : s.write p with ⟨t, e | _⟩ <;> rw [hr] at hp
    · exact hp
    · exact hp.trans (ih t)

/-- A writer that is full stays as it is. -/
theorem Grows.taken_of_full (h : s.Grows t) (hl : s.limit = some l) (hw : s.Within)
    (hf : s.taken.length = l) : t.taken = s.taken := by
  have ht := h.within hw l (h.limit.trans hl)
  exact (h.taken.eq_of_length_le (by omega)).symm

end SchemaSnapshot.Sink
