import SchemaSnapshot.Proofs.Url.Extension
import SchemaSnapshot.Proofs.Url.Percent

namespace SchemaSnapshot

namespace Segment

variable {s r : Segment}

theorem head_encode {c : Char} (h : Percent.encode Percent.path s = c :: r) (hc : c ≠ '%') :
    ∃ t, s = c :: t ∧ r = Percent.encode Percent.path t := by
  cases s with
  | nil => cases h
  | cons d t =>
    cases hd : Percent.path d with
    | true =>
      obtain ⟨m, n, u, hu, -⟩ := Percent.exists_code hd t
      rw [hu] at h
      exact absurd (List.cons.inj h).1.symm hc
    | false =>
      rw [Percent.encode_cons hd] at h
      obtain ⟨rfl, rfl⟩ := List.cons.inj h
      exact ⟨t, rfl, rfl⟩

theorem afterDot?_eq_some_iff :
    afterDot? s = some r ↔ s = '.' :: r ∨ ∃ e, (e = 'e' ∨ e = 'E') ∧
      s = '%' :: '2' :: e :: r := by
  constructor
  · intro h
    unfold afterDot? at h
    split at h
    all_goals cases h
    · exact .inl rfl
    · exact .inr ⟨_, .inl rfl, rfl⟩
    · exact .inr ⟨_, .inr rfl, rfl⟩
  · rintro (rfl | ⟨e, rfl | rfl, rfl⟩)
    all_goals rfl

theorem eq_dot_of_digits (hm : m < 16) (hn : n < 16) (h2 : Percent.digit m = '2')
    (he : Percent.digit n = 'e' ∨ Percent.digit n = 'E') : m * 16 + n = '.'.toNat := by
  have hdigit : ∀ k < 16, (Percent.digit k = '2' → k = 2) ∧ Percent.digit k ≠ 'e' ∧
      (Percent.digit k = 'E' → k = 14) := by
    decide
  obtain rfl := (hdigit m hm).1 h2
  obtain he | he := he
  · exact absurd he (hdigit n hn).2.1
  · obtain rfl := (hdigit n hn).2.2 he
    rfl

/-- Encoding makes no full stops. -/
theorem exists_afterDot? (h : afterDot? (Percent.encode Percent.path s) = some r) :
    ∃ t, afterDot? s = some t ∧ r = Percent.encode Percent.path t := by
  obtain h | ⟨e, he, h⟩ := afterDot?_eq_some_iff.mp h
  · obtain ⟨t, rfl, rfl⟩ := head_encode h (by decide)
    exact ⟨t, rfl, rfl⟩
  · cases s with
    | nil => cases h
    | cons d t =>
      cases hd : Percent.path d with
      | true =>
        obtain ⟨m, n, u, hu, hm, hn, hcode⟩ := Percent.exists_code hd t
        rw [hu] at h
        obtain ⟨-, h⟩ := List.cons.inj h
        obtain ⟨h2, h⟩ := List.cons.inj h
        obtain ⟨rfl, -⟩ := List.cons.inj h
        have hdot := eq_dot_of_digits hm hn h2 he
        obtain rfl := Char.toNat_inj.mp ((hcode (by rw [hdot]; decide)).trans hdot)
        exact absurd hd (by decide)
      | false =>
        rw [Percent.encode_cons hd] at h
        obtain ⟨rfl, h2⟩ := List.cons.inj h
        obtain ⟨t, rfl, he'⟩ := head_encode h2 (by decide)
        have hne : e ≠ '%' := by
          obtain rfl | rfl := he
          · decide
          · decide
        obtain ⟨t, rfl, rfl⟩ := head_encode he'.symm hne
        exact ⟨t, afterDot?_eq_some_iff.mpr (.inr ⟨e, he, rfl⟩), rfl⟩

theorem isHere_of_encode (h : isHere (Percent.encode Percent.path s) = true) :
    s.isHere = true := by
  rw [isHere, decide_eq_true_eq] at h
  obtain ⟨t, ht, hr⟩ := exists_afterDot? h
  rw [isHere, ht, Percent.encode_eq_nil hr.symm]
  rfl

theorem isUp_of_encode (h : isUp (Percent.encode Percent.path s) = true) : s.isUp = true := by
  rw [isUp, decide_eq_true_eq] at h
  obtain ⟨r, hr, h⟩ := Option.bind_eq_some_iff.mp h
  obtain ⟨t, ht, rfl⟩ := exists_afterDot? hr
  obtain ⟨u, hu, hn⟩ := exists_afterDot? h
  rw [isUp, ht, Option.bind_some, hu, Percent.encode_eq_nil hn.symm]
  rfl

/-- A segment that is read as it stands: encoded, without separators, and neither "here" nor
"up". -/
structure Settled (s : Segment) : Prop where
  encoded : ∀ c ∈ s, Percent.path c = false
  whole : ∀ c ∈ s, Url.isSlash .special c = false
  isHere : s.isHere = false
  isUp : s.isUp = false

theorem settled_nil : Settled [] :=
  ⟨fun _ h => absurd h List.not_mem_nil, fun _ h => absurd h List.not_mem_nil, rfl, rfl⟩

theorem settled_encode (h : ∀ c ∈ s, Url.isSlash .special c = false) (hh : s.isHere = false)
    (hu : s.isUp = false) : Settled (Percent.encode Percent.path s) where
  encoded _ := Percent.set_of_mem_encode Percent.sparesCodes_path
  whole _ := Percent.not_of_mem_encode ⟨rfl, by decide⟩ fun c hc _ => h c hc
  isHere := by
    rw [← Bool.not_eq_true] at hh ⊢
    exact mt isHere_of_encode hh
  isUp := by
    rw [← Bool.not_eq_true] at hu ⊢
    exact mt isUp_of_encode hu

end Segment

namespace Url.Path

open Segment

variable {done ss : List Segment}

theorem push_settled (h : Settled s) (done : List Segment) : push done s = done ++ [s] := by
  rw [push, h.isUp, h.isHere, Percent.encode_eq_self h.encoded]
  rfl

theorem pushLast_settled (h : Settled s) (done : List Segment) :
    pushLast done s = done ++ [s] := by
  rw [pushLast, h.isUp, h.isHere, Percent.encode_eq_self h.encoded]
  rfl

theorem resolve_settled (h : ∀ s ∈ ss, Settled s) (done : List Segment) :
    resolve done ss = done ++ ss := by
  induction ss generalizing done with
  | nil => exact (List.append_nil done).symm
  | cons s ss ih =>
    obtain ⟨hs, hss⟩ := List.forall_mem_cons.mp h
    cases ss with
    | nil => exact pushLast_settled hs done
    | cons t ss =>
      rw [resolve_cons done s (List.cons_ne_nil t ss), push_settled hs, ih hss,
        List.append_assoc]
      rfl

theorem mem_of_mem_shorten (h : s ∈ shorten done) : s ∈ done := by
  rw [shorten] at h
  split at h
  · split at h
    · exact h
    · exact List.dropLast_subset done h
  · cases h

theorem settled_of_mem_push (hd : ∀ t ∈ done, Settled t)
    (hs : ∀ c ∈ s, isSlash .special c = false) : ∀ t ∈ push done s, Settled t := by
  intro t ht
  rw [push] at ht
  split at ht
  · exact hd t (mem_of_mem_shorten ht)
  · next hu =>
    split at ht
    · exact hd t ht
    · next hh =>
      obtain ht | ht := List.mem_append.mp ht
      · exact hd t ht
      · obtain rfl := List.mem_singleton.mp ht
        exact settled_encode hs (by simpa using hh) (by simpa using hu)

theorem settled_of_mem_pushLast (hd : ∀ t ∈ done, Settled t)
    (hs : ∀ c ∈ s, isSlash .special c = false) : ∀ t ∈ pushLast done s, Settled t := by
  have hp := settled_of_mem_push hd hs
  obtain h | h := pushLast_eq done s
  · rwa [h]
  · rw [h]
    exact List.forall_mem_append.mpr ⟨hp, List.forall_mem_singleton.mpr settled_nil⟩

theorem pushLast_ne_nil (done : List Segment) (s : Segment) : pushLast done s ≠ [] := by
  unfold pushLast
  split
  · exact List.append_ne_nil_of_right_ne_nil _ (List.cons_ne_nil _ _)
  · split
    · exact List.append_ne_nil_of_right_ne_nil _ (List.cons_ne_nil _ _)
    · exact List.append_ne_nil_of_right_ne_nil _ (List.cons_ne_nil _ _)

theorem resolve_ne_nil (done : List Segment) (h : ss ≠ []) : resolve done ss ≠ [] := by
  obtain ⟨qs, s, rfl⟩ := (List.eq_nil_or_concat' ss).resolve_left h
  rw [resolve_append done qs (List.cons_ne_nil s [])]
  exact pushLast_ne_nil _ s

theorem settled_of_mem_resolve (hd : ∀ t ∈ done, Settled t)
    (hs : ∀ s ∈ ss, ∀ c ∈ s, isSlash .special c = false) :
    ∀ t ∈ resolve done ss, Settled t := by
  induction ss generalizing done with
  | nil => exact hd
  | cons s ss ih =>
    obtain ⟨hw, hss⟩ := List.forall_mem_cons.mp hs
    cases ss with
    | nil => exact settled_of_mem_pushLast hd hw
    | cons r ss => exact ih (settled_of_mem_push hd hw) hss

theorem chars_cons (s : Segment) (ss : List Segment) :
    (rooted (s :: ss)).chars = '/' :: ['/'].intercalate (s :: ss) := by
  induction ss generalizing s with
  | nil => simp [chars]
  | cons r ss ih =>
    rw [chars, List.flatMap_cons, ← chars, ih, List.intercalate_cons_cons]
    simp

end Url.Path

namespace Url

theorem exists_readPath (cs : List Char) :
    ∃ ss, readPath .special cs = .rooted ss ∧ ss ≠ [] ∧ ∀ s ∈ ss, s.Settled := by
  have hp : ∀ s ∈ pieces .special cs, ∀ c ∈ s, isSlash .special c = false := by
    cases cs with
    | nil => exact List.forall_mem_singleton.mpr fun c hc => absurd hc List.not_mem_nil
    | cons c r => exact fun _ => Text.not_of_mem_split
  exact ⟨_, if_neg (by simp), Path.resolve_ne_nil [] (pieces_ne_nil _ cs),
    Path.settled_of_mem_resolve (fun _ h => absurd h List.not_mem_nil) hp⟩

theorem readPath_chars {ss : List Segment} (hn : ss ≠ []) (h : ∀ s ∈ ss, s.Settled) :
    readPath .special (Path.rooted ss).chars = .rooted ss := by
  obtain ⟨s, r, rfl⟩ := List.exists_cons_of_ne_nil hn
  have hs : isSlash .special '/' = true := rfl
  have hp : pieces .special (Path.rooted (s :: r)).chars = s :: r := by
    rw [Path.chars_cons, pieces, if_pos hs]
    exact Text.split_intercalate hs (fun s hs => (h s hs).whole) hn
  rw [readPath, if_neg (by simp), hp, Path.resolve_settled h]
  rfl

/-- Neither blanks nor marks stand in a path. -/
theorem mem_path {ss : List Segment} (h : ∀ s ∈ ss, s.Settled)
    (hc : c ∈ (Path.rooted ss).chars) : IsVisible c ∧ endsPath c = false := by
  obtain ⟨s, hs, hc⟩ := List.mem_flatMap.mp hc
  obtain rfl | hc := List.mem_cons.mp hc
  · decide
  · obtain ⟨hf, hm⟩ := Bool.or_eq_false_iff.mp ((h s hs).encoded c hc)
    refine ⟨Percent.isVisible_of_not_fragment hf, ?_⟩
    simp only [List.mem_cons, decide_eq_false_iff_not, not_or] at hm
    simp [endsPath, hm]

end Url

end SchemaSnapshot
