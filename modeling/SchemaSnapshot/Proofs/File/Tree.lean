import SchemaSnapshot.Proofs.File.Path

namespace SchemaSnapshot.File.Tree

variable {t u : Tree} {p q : Place} {s : Step} {ss rs : List Step} {n : Name} {path : List Char}
  {e : IoError}

theorem find_cons (r : Place) (d : Entry) (es : List (Place × Entry)) (q : Place) :
    find ((r, d) :: es) q = if q = r then some d else find es q := by
  by_cases h : q = r
  · subst h
    simp [find]
  · simp [find, List.lookup_cons, beq_false_of_ne h, h]

theorem find_put (es : List (Place × Entry)) (p q : Place) (e : Entry) :
    find (put es p e) q = if q = p then some e else find es q := by
  induction es with
  | nil => exact find_cons p e [] q
  | cons x es ih =>
    obtain ⟨r, d⟩ := x
    by_cases hr : r = p
    · subst hr
      simp only [put, if_true, find_cons]
      split <;> rfl
    · simp only [put, hr, if_false, find_cons, ih]
      by_cases h : q = r
      · subst h
        simp [hr]
      · simp [h]

theorem get?_insert (t : Tree) (hp : p ≠ []) (e : Entry) (q : Place) :
    (t.insert p e).get? q = if q = p then some e else t.get? q := by
  by_cases hq : q = []
  · subst hq
    simp [get?, Ne.symm hp]
  · simp only [get?, insert, hq, if_false, find_put]

/-- Steps can be taken from a folder: each name on the way is that of a folder. -/
def Passable (t : Tree) (p : Place) : List Step → Prop
  | [] => True
  | .here :: ss => t.Passable p ss
  | .up :: ss => t.Passable p.dropLast ss
  | .name n :: ss =>
    octetLength n ≤ maxNameLength ∧ t.get? (p ++ [n]) = some .folder ∧ t.Passable (p ++ [n]) ss

theorem enter_eq_ok_iff : t.enter p s = .ok q ↔ t.Passable p [s] ∧ q = advance p s := by
  cases s with
  | here => simp [enter, Passable, advance, eq_comm]
  | up => simp [enter, Passable, advance, eq_comm]
  | name n =>
    simp only [enter, Passable, advance]
    split
    · simp only [reduceCtorEq, false_iff]
      omega
    · rename_i h
      have hn : octetLength n ≤ maxNameLength := by omega
      cases t.get? (p ++ [n]) with
      | none => simp
      | some e => cases e <;> simp [hn, eq_comm]

theorem passable_cons :
    t.Passable p (s :: ss) ↔ t.Passable p [s] ∧ t.Passable (advance p s) ss := by
  cases s with
  | here => simp only [Passable, advance, true_and]
  | up => simp only [Passable, advance, true_and]
  | name n => simp only [Passable, advance, and_assoc, true_and]

theorem foldlM_enter_eq_ok_iff :
    ss.foldlM t.enter p = .ok q ↔ t.Passable p ss ∧ q = resolve p ss := by
  induction ss generalizing p with
  | nil => simp [Passable, pure, Except.pure, eq_comm]
  | cons s ss ih =>
    rw [List.foldlM_cons, passable_cons, resolve_cons]
    cases he : t.enter p s with
    | error e =>
      have hs : ¬ t.Passable p [s] := fun h => by
        rw [enter_eq_ok_iff.2 ⟨h, rfl⟩] at he
        cases he
      simp [bind, Except.bind, hs]
    | ok r =>
      obtain ⟨hs, rfl⟩ := enter_eq_ok_iff.1 he
      simp [bind, Except.bind, hs, ih]

theorem walk_eq_ok_iff : t.walk ss = .ok q ↔ t.Passable [] ss ∧ q = resolve [] ss :=
  foldlM_enter_eq_ok_iff

theorem not_passable_of_walk (h : t.walk ss = .error e) : ¬ t.Passable [] ss := by
  intro hp
  rw [walk_eq_ok_iff.2 ⟨hp, rfl⟩] at h
  cases h

theorem Passable.of_isPrefix (h : t.Passable p ss) (hr : rs <+: ss) : t.Passable p rs := by
  induction rs generalizing p ss with
  | nil => trivial
  | cons s rs ih =>
    obtain ⟨us, rfl⟩ := hr
    rw [List.cons_append, passable_cons] at h
    exact passable_cons.2 ⟨h.1, ih h.2 (List.prefix_append _ _)⟩

/-- All folders of one tree are folders of another. -/
def FoldersKept (t u : Tree) : Prop :=
  ∀ q, t.get? q = some .folder → u.get? q = some .folder

theorem Passable.mono (h : t.Passable p ss) (hk : t.FoldersKept u) : u.Passable p ss := by
  induction ss generalizing p with
  | nil => trivial
  | cons s ss ih =>
    cases s with
    | here => exact ih (p := p) h
    | up => exact ih (p := p.dropLast) h
    | name n => exact ⟨h.1, hk _ h.2.1, ih h.2.2⟩

theorem makeFolders_of_passable (h : t.Passable p ss) (m : Bool) :
    t.makeFolders p m ss = (t, .ok ()) := by
  induction ss generalizing p with
  | nil => rfl
  | cons s ss ih =>
    cases s with
    | here => exact ih (p := p) h
    | up => exact ih (p := p.dropLast) h
    | name n =>
      have hn : ¬ maxNameLength < octetLength n := Nat.not_lt.2 h.1
      simp only [makeFolders, hn, if_false, h.2.1]
      exact ih h.2.2

/-- A tree differs from another only in folders that steps lead through and that were missing.
-/
def OnlyAddsFolders (t u : Tree) (p : Place) (ss : List Step) : Prop :=
  ∀ q, u.get? q = t.get? q ∨
    t.get? q = none ∧ u.get? q = some .folder ∧ ∃ rs, rs <+: ss ∧ q = resolve p rs

theorem OnlyAddsFolders.refl (t : Tree) (p : Place) (ss : List Step) :
    t.OnlyAddsFolders t p ss :=
  fun _ => .inl rfl

theorem OnlyAddsFolders.cons (h : t.OnlyAddsFolders u (advance p s) ss) :
    t.OnlyAddsFolders u p (s :: ss) := by
  intro q
  rcases h q with hq | ⟨hn, hf, rs, hr, he⟩
  · exact .inl hq
  · exact .inr ⟨hn, hf, s :: rs, (List.prefix_cons_inj s).2 hr, he⟩

theorem OnlyAddsFolders.cons_insert (hn : t.get? (p ++ [n]) = none)
    (h : (t.insert (p ++ [n]) .folder).OnlyAddsFolders u (p ++ [n]) ss) :
    t.OnlyAddsFolders u p (.name n :: ss) := by
  intro q
  have hg := get?_insert t (p := p ++ [n]) (by simp) .folder q
  by_cases hq : q = p ++ [n]
  · have hf : (t.insert (p ++ [n]) .folder).get? q = some .folder := by rw [hg, if_pos hq]
    refine .inr ⟨hq ▸ hn, ?_, [.name n], by simp, hq⟩
    rcases h q with he | ⟨hnone, _⟩
    · exact he.trans hf
    · rw [hf] at hnone
      cases hnone
  · rw [if_neg hq] at hg
    rcases h q with he | ⟨hnone, hf, rs, hr, he⟩
    · exact .inl (he.trans hg)
    · exact .inr ⟨hg ▸ hnone, hf, .name n :: rs, (List.prefix_cons_inj _).2 hr, he⟩

theorem makeFolders_onlyAdds (t : Tree) (p : Place) (m : Bool) (ss : List Step) :
    t.OnlyAddsFolders (t.makeFolders p m ss).1 p ss := by
  induction ss generalizing t p m with
  | nil => exact .refl t p []
  | cons s ss ih =>
    cases s with
    | here => exact (ih t p m).cons
    | up => exact (ih t p.dropLast m).cons
    | name n =>
      simp only [makeFolders]
      split
      · exact .refl _ _ _
      · split
        · exact (ih t (p ++ [n]) m).cons
        · rename_i hn
          exact .cons_insert hn (ih _ (p ++ [n]) true)
        · exact .refl _ _ _

theorem OnlyAddsFolders.foldersKept (h : t.OnlyAddsFolders u p ss) : t.FoldersKept u := by
  intro q hq
  rcases h q with he | ⟨hn, _⟩
  · exact he.trans hq
  · rw [hq] at hn
    cases hn

theorem passable_of_makeFolders {m : Bool} (h : (t.makeFolders p m ss).2 = .ok ()) :
    (t.makeFolders p m ss).1.Passable p ss := by
  induction ss generalizing t p m with
  | nil => trivial
  | cons s ss ih =>
    cases s with
    | here => exact ih h
    | up => exact ih h
    | name n =>
      simp only [makeFolders] at h ⊢
      split at h
      · cases h
      · rename_i hn
        rw [if_neg hn]
        split at h
        · rename_i hf
          exact ⟨Nat.not_lt.1 hn, (makeFolders_onlyAdds _ _ _ _).foldersKept _ hf, ih h⟩
        · have hi : (t.insert (p ++ [n]) .folder).get? (p ++ [n]) = some .folder := by
            rw [get?_insert t (by simp), if_pos rfl]
          exact ⟨Nat.not_lt.1 hn, (makeFolders_onlyAdds _ _ _ _).foldersKept _ hi, ih h⟩
        · cases h

end SchemaSnapshot.File.Tree
