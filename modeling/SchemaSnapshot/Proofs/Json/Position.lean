import SchemaSnapshot.Proofs.Json.Opening

namespace SchemaSnapshot.Json

/-- The position is told of the place after the first `i` octets of the text. -/
structure Position.IsAt (p : Position) (bs : List UInt8) (i : Nat) : Prop where
  le_length : i ≤ bs.length
  line : p.line = 1 + (bs.take i).count 0x0A
  /-- The line begins at `j`, after a line feed or with the text. -/
  column : ∃ j ≤ i, p.column = i - j ∧ (j = 0 ∨ bs[j - 1]? = some 0x0A) ∧
    ∀ k, j ≤ k → k < i → bs[k]? ≠ some 0x0A

theorem Position.isAt_zero (bs : List UInt8) : Position.IsAt ⟨1, 0⟩ bs 0 where
  le_length := Nat.zero_le _
  line := rfl
  column := ⟨0, Nat.le_refl 0, rfl, .inl rfl, fun k _ hk => absurd hk (Nat.not_lt_zero k)⟩

theorem Position.IsAt.next (h : Position.IsAt p bs i) (hb : bs[i]? = some b) :
    (p.next b).IsAt bs (i + 1) := by
  have hi : i + 1 ≤ bs.length := (List.getElem?_eq_some_iff.mp hb).1
  have hcount : (bs.take (i + 1)).count 0x0A = (bs.take i).count 0x0A + [b].count 0x0A := by
    rw [List.take_add_one, hb, List.count_append]
    rfl
  by_cases hlf : b = 0x0A
  · subst hlf
    rw [Position.next, if_pos rfl]
    refine ⟨hi, ?_, i + 1, Nat.le_refl _, (Nat.sub_self _).symm, .inr hb, ?_⟩
    · rw [hcount, h.line]
      exact Nat.add_assoc 1 _ 1
    · intro k hk hk'
      omega
  · obtain ⟨j, hj, hc, hs, hl⟩ := h.column
    rw [Position.next, if_neg hlf]
    refine ⟨hi, ?_, j, by omega, ?_, hs, ?_⟩
    · rw [hcount, h.line, List.count_singleton, if_neg (by simpa using hlf), Nat.add_zero]
    · have hc' : p.column + 1 = i + 1 - j := by omega
      exact hc'
    · intro k hk hk'
      obtain hlt | rfl := Nat.lt_or_eq_of_le (Nat.le_of_lt_succ hk')
      · exact hl k hk hlt
      · rw [hb]
        simpa using hlf

theorem Position.after_concat (bs : List UInt8) (b : UInt8) :
    Position.after (bs ++ [b]) = (Position.after bs).next b :=
  List.foldl_concat ..

theorem Position.isAt_after (h : i ≤ bs.length) : (Position.after (bs.take i)).IsAt bs i := by
  induction i with
  | zero => exact Position.isAt_zero bs
  | succ i ih =>
    have hb : bs[i]? = some bs[i] := List.getElem?_eq_getElem h
    rw [List.take_add_one, hb]
    rw [Option.toList_some, Position.after_concat]
    exact (ih (Nat.le_of_succ_le h)).next hb

/-- A fault at a place of the text, which was had and did not end too soon. -/
def Fault.IsLocal : Fault → Prop
  | .here cause _ => cause.category ≠ .eof ∧ cause.category ≠ .io
  | .within .. => False

theorem isAt_toError (cause : Cause) (back : Nat) (p r : List UInt8) :
    ((Fault.here cause back).toError p).position.IsAt (p ++ r) (p.length - back) := by
  have ht : p.take (p.length - back) = (p ++ r).take (p.length - back) :=
    (List.take_append_of_le_length (Nat.sub_le _ _)).symm
  rw [Fault.toError, ht]
  apply Position.isAt_after
  rw [List.length_append]
  omega

theorem local_of_begin (h : State.begin stack b = .error f) : f.IsLocal := by
  simp only [State.begin, refuse] at h
  repeat' split at h
  all_goals cases h
  all_goals exact ⟨Category.noConfusion, Category.noConfusion⟩

theorem local_of_follow (h : State.follow stack u b = .error f) : f.IsLocal := by
  simp only [State.follow, refuse] at h
  repeat' split at h
  all_goals cases h
  all_goals exact ⟨Category.noConfusion, Category.noConfusion⟩

theorem category_of_failed {scan : StringScan} (h : scan.step b = .failed cause) :
    cause.category ≠ .eof ∧ cause.category ≠ .io := by
  simp only [StringScan.step, StringScan.unit, StringScan.push] at h
  repeat' split at h
  all_goals cases h
  all_goals exact ⟨Category.noConfusion, Category.noConfusion⟩

theorem local_of_decode (h : StringScan.decode ct = .error f) : f.IsLocal := by
  rw [StringScan.decode] at h
  split at h
  · cases h
  · cases h
    exact ⟨Category.noConfusion, Category.noConfusion⟩

/-- Only inside the text of a number does the reader tell of a place that is not one of the
whole text. -/
theorem local_of_step {s : State} (hs : ∀ scan, s.phase ≠ .sealedText scan)
    (h : s.step b = .error f) : f.IsLocal := by
  obtain ⟨stack, phase⟩ := s
  cases phase with
  | sealedText scan => exact absurd rfl (hs scan)
  | value =>
    simp only [State.step] at h
    split at h
    · cases h
    · exact local_of_begin h
  | firstItem =>
    simp only [State.step] at h
    split at h
    · cases h
    · split at h
      · cases h
      · exact local_of_begin h
  | item items =>
    simp only [State.step] at h
    split at h
    · cases h
    · split at h
      · cases h
        exact ⟨Category.noConfusion, Category.noConfusion⟩
      · exact local_of_begin h
  | literal rest u =>
    simp only [State.step] at h
    split at h
    · exact local_of_follow h
    · split at h
      · cases h
      · cases h
        exact ⟨Category.noConfusion, Category.noConfusion⟩
  | number scan =>
    simp only [State.step] at h
    split at h
    · cases h
    · exact local_of_follow h
    · cases h
      exact ⟨Category.noConfusion, Category.noConfusion⟩
  | after u => exact local_of_follow h
  | keyText ms isFirst scan =>
    simp only [State.step] at h
    split at h
    · cases h
    · exact local_of_decode (map_eq_error h)
    · next hb =>
      cases h
      exact category_of_failed hb
  | text scan =>
    simp only [State.step] at h
    split at h
    · cases h
    · exact local_of_decode (map_eq_error h)
    · next hb =>
      cases h
      exact category_of_failed hb
  | _ =>
    -- here each fault is at the octet itself or one before it
    simp only [State.step, State.beginSealed, refuse] at h
    repeat' split at h
    all_goals cases h
    all_goals exact ⟨Category.noConfusion, Category.noConfusion⟩

theorem State.Begun.ne_sealedText {s : State} (h : s.Begun bs) (scan : StringScan) :
    s.phase ≠ .sealedText scan := by
  intro hp
  simp only [State.Begun, hp] at h

/-- A run fails at the end of the text, or at the first octet that the state before it refuses.
-/
theorem exists_of_run_error {s : State} (h : run s taken bs = .error e) :
    (∃ t cause, s.Reaches bs t ∧ t.finish = .error cause ∧
      e = (Fault.here cause 0).toError (taken.reverse ++ bs)) ∨
    ∃ p b r t fault, bs = p ++ b :: r ∧ s.Reaches p t ∧ t.step b = .error fault ∧
      e = fault.toError (taken.reverse ++ (p ++ [b])) := by
  induction bs generalizing s taken with
  | nil =>
    rw [run] at h
    cases hf : s.finish with
    | ok v =>
      rw [hf] at h
      cases h
    | error cause =>
      rw [hf] at h
      obtain rfl := Except.error.inj h
      exact .inl ⟨s, cause, rfl, hf, by rw [List.append_nil]⟩
  | cons b bs ih =>
    rw [run] at h
    cases hb : s.step b with
    | error fault =>
      rw [hb] at h
      obtain rfl := Except.error.inj h
      exact .inr ⟨[], b, bs, s, fault, rfl, rfl, hb, by rw [List.reverse_cons]; rfl⟩
    | ok u =>
      rw [hb] at h
      obtain ⟨t, cause, hr, hf, he⟩ | ⟨p, c, r, t, fault, rfl, hr, hf, he⟩ := ih h
      · rw [List.reverse_cons, List.append_assoc] at he
        exact .inl ⟨t, cause, ⟨u, hb, hr⟩, hf, he⟩
      · rw [List.reverse_cons, List.append_assoc] at he
        exact .inr ⟨b :: p, c, r, t, fault, rfl, ⟨u, hb, hr⟩, hf, he⟩

def Fault.cause : Fault → Cause
  | .here cause _ => cause
  | .within cause _ => cause

theorem category_of_numberRest {n : NumberScan} (h : numberRest n p bs = .error f) :
    f.cause.category ≠ .io := by
  induction bs generalizing n p with
  | nil =>
    unfold numberRest at h
    split at h
    · cases h
    · cases h
      exact Category.noConfusion
  | cons b bs ih =>
    unfold numberRest at h
    split at h
    · exact ih h
    · cases h
      exact Category.noConfusion
    · split at h
      all_goals cases h
      all_goals exact Category.noConfusion

theorem category_of_numberOfText {s : String} (h : numberOfText s = .error f) :
    f.cause.category ≠ .io := by
  rw [numberOfText] at h
  split at h
  · cases h
    exact Category.noConfusion
  · split at h
    · exact category_of_numberRest h
    · cases h
      exact Category.noConfusion

theorem Fault.IsLocal.category {f : Fault} (h : f.IsLocal) : f.cause.category ≠ .io := by
  cases f with
  | here cause back => exact h.2
  | within => exact h.elim

theorem category_of_step {s : State} (h : s.step b = .error f) : f.cause.category ≠ .io := by
  by_cases hs : ∃ scan, s.phase = .sealedText scan
  · obtain ⟨stack, _⟩ := s
    obtain ⟨scan, rfl⟩ := hs
    simp only [State.step] at h
    split at h
    · cases h
    · obtain h | ⟨ct, -, h⟩ := bind_eq_error h
      · exact (local_of_decode h).category
      · obtain h | ⟨_, -, h⟩ := bind_eq_error h
        · exact category_of_numberOfText h
        · cases h
    · next hb =>
      cases h
      exact (category_of_failed hb).2
  · exact (local_of_step (fun scan hp => hs ⟨scan, hp⟩) h).category

theorem category_of_finish {s : State} (h : s.finish = .error cause) : cause.category ≠ .io := by
  simp only [State.finish, State.close] at h
  repeat' split at h
  all_goals cases h
  all_goals exact Category.noConfusion

/-- A text that is there is refused for what it says, and for nothing below that. -/
theorem chain_of_read (h : read bs = .error e) : e.chain = [e.message] := by
  have hc : e.cause.category ≠ .io := by
    obtain ⟨_, cause, -, hf, rfl⟩ | ⟨_, _, _, _, fault, -, -, hf, rfl⟩ := exists_of_run_error h
    · exact category_of_finish hf
    · cases fault with
      | here => exact category_of_step hf
      | within => exact category_of_step hf
  rw [Error.chain]
  split
  · next he =>
    rw [he] at hc
    exact absurd rfl hc
  · rfl

/-- Unless an object of the text begins with the key of a number, a text is refused at one of
its own places, and for ending too soon only at its end. -/
theorem exists_place_of_read (h : read bs = .error e) (hn : ¬ BeginsObject numberKey bs) :
    ∃ i, e.position.IsAt bs i ∧ (e.category = .eof → i = bs.length) := by
  obtain ⟨t, cause, _, _, rfl⟩ | ⟨p, b, r, t, fault, rfl, hr, hf, rfl⟩ := exists_of_run_error h
  · refine ⟨bs.length, ?_, fun _ => rfl⟩
    have ht := isAt_toError cause 0 bs []
    rwa [List.append_nil] at ht
  · have ht : t.Begun p := by
      refine (hr.begun begun_start).resolve_right fun hk => hn ?_
      exact hk.append (b :: r)
    have hl := local_of_step ht.ne_sealedText hf
    cases fault with
    | within => exact hl.elim
    | here cause back =>
      have hp := isAt_toError cause back (p ++ [b]) r
      rw [← List.append_cons] at hp
      exact ⟨_, hp, fun hc => absurd hc hl.1⟩

/-- In the text of a number the places are those of that text: this one has a single line, and
it is refused in the second. -/
example : read (octets ("\x7b\"" ++ numberKey ++ "\":\"\\n\"\x7d")) =
    .error ⟨.invalidNumber, .data, ⟨2, 0⟩⟩ :=
  rfl

end SchemaSnapshot.Json
