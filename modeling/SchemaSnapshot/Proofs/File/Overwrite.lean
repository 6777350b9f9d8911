import SchemaSnapshot.Proofs.Document
import SchemaSnapshot.Proofs.File.Save

namespace SchemaSnapshot.File.Tree

/-- What makes a path unfit to be written to. -/
inductive Refuses (t : Tree) (path : List Char) : Prop
  | nul : '\x00' ∈ path → Refuses t path
  | empty : path = [] → Refuses t path
  | long : maxPathLength ≤ octetLength path → Refuses t path
  | longName : .name n ∈ steps path → maxNameLength < octetLength n → Refuses t path
  | slash : endsInSlash path = true → Refuses t path
  | unnamed : (∀ n, (steps path).getLast? ≠ some (.name n)) → Refuses t path
  | folder : t.get? (placeNamed path) = some .folder → Refuses t path
  /-- The place is that of a folder on the way. -/
  | ownFolder : Leads path (placeNamed path) → Refuses t path
  | file : Leads path q → t.get? q = some (.file c) → Refuses t path

variable {t u : Tree} {p q : Place} {ss rs : List Step} {n : Name}
  {path : List Char} {d : Document}
  {e : IoError} {m : Bool}

theorem Passable.folder (h : t.Passable p ss) (hp : ∀ q, q <+: p → t.get? q = some .folder) :
    t.get? (resolve p ss) = some .folder := by
  induction ss generalizing p with
  | nil => exact hp p (List.prefix_refl p)
  | cons s ss ih =>
    cases s with
    | here => exact ih h hp
    | up => exact ih (p := p.dropLast) h fun q hq => hp q (hq.trans (List.dropLast_prefix p))
    | name n =>
      apply ih h.2.2
      intro q hq
      rcases List.prefix_concat_iff.1 hq with rfl | hq
      · exact h.2.1
      · exact hp q hq

theorem Passable.folder_root (h : t.Passable [] ss) :
    t.get? (resolve [] ss) = some .folder := by
  apply h.folder
  intro q hq
  rw [List.prefix_nil.1 hq]
  rfl

theorem Passable.length_le (h : t.Passable p ss) (hn : .name n ∈ ss) :
    octetLength n ≤ maxNameLength := by
  induction ss generalizing p with
  | nil => cases hn
  | cons s ss ih =>
    rw [passable_cons] at h
    rcases List.mem_cons.1 hn with rfl | hn
    · exact h.1.1
    · exact ih h.2 hn

theorem refuses_of_check (h : check path = .error e) : t.Refuses path := by
  unfold check at h
  split at h
  · exact .nul ‹_›
  · split at h
    · exact .empty ‹_›
    · split at h
      · exact .long ‹_›
      · cases h

/-- A name on the way is too long, or a file stands there. -/
def Blocked (t : Tree) (p : Place) (ss : List Step) : Prop :=
  (∃ n, .name n ∈ ss ∧ maxNameLength < octetLength n) ∨
    ∃ rs c, rs <+: ss ∧ t.get? (resolve p rs) = some (.file c)

theorem Blocked.cons (h : t.Blocked (advance p s) ss) : t.Blocked p (s :: ss) := by
  rcases h with ⟨n, hn, hl⟩ | ⟨rs, c, hr, hc⟩
  · exact .inl ⟨n, List.mem_cons_of_mem s hn, hl⟩
  · exact .inr ⟨s :: rs, c, (List.prefix_cons_inj s).2 hr, hc⟩

theorem Blocked.of_insert (h : (t.insert q .folder).Blocked p ss) (hq : q ≠ []) :
    t.Blocked p ss := by
  rcases h with hn | ⟨rs, c, hr, hc⟩
  · exact .inl hn
  · rw [get?_insert t hq] at hc
    split at hc
    · cases hc
    · exact .inr ⟨rs, c, hr, hc⟩

theorem blocked_of_makeFolders (h : (t.makeFolders p m ss).2 = .error e) : t.Blocked p ss := by
  induction ss generalizing t p m with
  | nil => cases h
  | cons s ss ih =>
    cases s with
    | here => exact Blocked.cons (s := .here) (ih h)
    | up => exact Blocked.cons (s := .up) (ih h)
    | name n =>
      rw [makeFolders] at h
      split at h
      · rename_i hn
        exact .inl ⟨n, List.mem_cons_self, hn⟩
      · split at h
        · exact Blocked.cons (s := .name n) (ih h)
        · exact Blocked.cons (s := .name n) ((ih h).of_insert (by simp))
        · rename_i c hc
          exact .inr ⟨[.name n], c, by simp, hc⟩

theorem OnlyAddsFolders.leads (h : t.OnlyAddsFolders u [] (stepsOf (folderParts path)))
    (q : Place) :
    u.get? q = t.get? q ∨ t.get? q = none ∧ u.get? q = some .folder ∧ Leads path q := by
  rcases h q with he | ⟨hn, hf, rs, hr, rfl⟩
  · exact .inl he
  · refine .inr ⟨hn, hf, leads_of_isPrefix hr ?_⟩
    rintro rfl
    cases hn

theorem refuses_of_makeWay (h : (t.makeWay path).2 = .error e) : t.Refuses path := by
  unfold makeWay at h
  split at h
  · cases h
  · rename_i hf
    split at h
    · rename_i hc
      cases hp : check path with
      | error _ => exact refuses_of_check hp
      | ok _ =>
        rw [check_folderParts hp hf] at hc
        cases hc
    · rcases blocked_of_makeFolders h with ⟨n, hn, hl⟩ | ⟨rs, c, hr, hc⟩
      · exact .longName (((folderParts_isPrefix path).filterMap _).subset hn) hl
      · refine .file (leads_of_isPrefix hr ?_) hc
        rintro rfl
        cases hc

theorem Passable.append_here (h : t.Passable p ss) (hr : ∀ s ∈ rs, s = .here) :
    t.Passable p (ss ++ rs) := by
  induction ss generalizing p with
  | nil =>
    clear h
    induction rs with
    | nil => trivial
    | cons s rs ih =>
      obtain ⟨rfl, hs⟩ := List.forall_mem_cons.1 hr
      exact ih hs
  | cons s ss ih =>
    rw [passable_cons] at h
    exact passable_cons.2 ⟨h.1, ih h.2⟩

theorem passable_of_makeWay (h : t.makeWay path = (u, .ok ()))
    (hl : (steps path).getLast? = some (.name n)) : u.Passable [] (steps path).dropLast := by
  obtain ⟨rs, hd, hr⟩ := dropLast_steps hl
  rw [hd]
  refine Passable.append_here ?_ hr
  unfold makeWay at h
  split at h
  · rename_i hf
    rw [hf]
    trivial
  · split at h
    · cases h
    · have hp := passable_of_makeFolders (congrArg Prod.snd h)
      rwa [h] at hp

theorem refuses_of_placeOf (hw : t.makeWay path = (u, .ok ())) (h : u.placeOf path = .error e) :
    t.Refuses path := by
  have ha := makeWay_onlyAdds t path
  rw [hw] at ha
  by_contra hr
  -- without a reason to refuse the path, each condition for a place is met
  have hc : check path = .ok () := by
    cases hc : check path with
    | ok _ => rfl
    | error _ => exact absurd (refuses_of_check hc) hr
  have hs : endsInSlash path = false := by
    cases hs : endsInSlash path with
    | false => rfl
    | true => exact absurd (.slash hs) hr
  obtain ⟨n, hl⟩ : ∃ n, (steps path).getLast? = some (.name n) := by
    by_contra hn
    exact hr (.unnamed fun n hl => hn ⟨n, hl⟩)
  have hn : octetLength n ≤ maxNameLength := by
    by_contra hn
    exact hr (.longName (List.mem_of_getLast? hl) (Nat.not_le.1 hn))
  have hf : u.get? (placeNamed path) ≠ some .folder := by
    intro hf
    rcases ha.leads (placeNamed path) with he | ⟨-, -, hp⟩
    · exact hr (.folder (he.symm.trans hf))
    · exact hr (.ownFolder hp)
  have ho : u.placeOf path = .ok (placeNamed path) :=
    placeOf_eq_ok_iff.2 ⟨hc, hs, rfl, n, hl, hn, passable_of_makeWay hw hl, hf⟩
  rw [ho] at h
  cases h

theorem refuses_of_save (h : (t.save path d).2 = .error e) : t.Refuses path := by
  rw [save] at h
  rcases hw : t.makeWay path with ⟨u, e' | _⟩ <;> simp only [hw] at h
  · exact refuses_of_makeWay (congrArg Prod.snd hw)
  · rw [write] at h
    cases hp : u.placeOf path with
    | error e' => exact refuses_of_placeOf hw hp
    | ok p =>
      rw [hp] at h
      cases h

theorem save_eq_ok (h : t.save path d = (u, .ok ())) :
    ∃ v, t.makeWay path = (v, .ok ()) ∧ v.placeOf path = .ok (placeNamed path) ∧
      u = v.insert (placeNamed path) (.file (octets d.pretty)) := by
  rcases t.save_cases path d with ⟨v, e, he, -⟩ | ⟨v, he, hw, -, hp⟩
  · rw [h] at he
    cases he
  · rw [h] at he
    cases he
    exact ⟨v, hw, hp, rfl⟩

/-- Where a file can be written, every folder on the way is there. -/
theorem folder_of_leads (h : t.placeOf path = .ok p) (hq : Leads path q) :
    t.get? q = some .folder := by
  obtain ⟨l, r, rfl, rfl⟩ := hq
  obtain ⟨-, hs, -, n, -, -, hp, -⟩ := placeOf_eq_ok_iff.1 h
  exact (hp.of_isPrefix (steps_isPrefix_dropLast hs)).folder_root

theorem put_put (es : List (Place × Entry)) (p : Place) (e e' : Entry) :
    put (put es p e) p e' = put es p e' := by
  induction es with
  | nil => simp [put]
  | cons x es ih =>
    obtain ⟨q, d⟩ := x
    by_cases hq : q = p
    · simp [put, hq]
    · simp [put, hq, ih]

theorem insert_insert (t : Tree) (p : Place) (e e' : Entry) :
    (t.insert p e).insert p e' = t.insert p e' := by
  simp only [insert, put_put]

theorem not_refuses_of_save (h : t.save path d = (u, .ok ())) : ¬ t.Refuses path := by
  obtain ⟨v, hw, hp, -⟩ := save_eq_ok h
  have ha := makeWay_onlyAdds t path
  rw [hw] at ha
  obtain ⟨hc, hs, -, n, hl, hn, hd, hf⟩ := placeOf_eq_ok_iff.1 hp
  obtain ⟨hz, he, hlen⟩ := check_eq_ok_iff.1 hc
  intro hr
  cases hr with
  | nul h => exact hz h
  | empty h => exact he h
  | long h => exact absurd hlen (Nat.not_lt.2 h)
  | @longName m hm h =>
    rw [← List.dropLast_append_getLast? _ hl] at hm
    rcases List.mem_append.1 hm with hm | hm
    · exact absurd (hd.length_le hm) (Nat.not_le.2 h)
    · cases List.mem_singleton.1 hm
      exact absurd hn (Nat.not_le.2 h)
  | slash h =>
    rw [hs] at h
    cases h
  | unnamed h => exact h n hl
  | folder h => exact hf (ha.foldersKept _ h)
  | ownFolder h => exact hf (folder_of_leads hp h)
  | file hq h =>
    have hg := (ha.sameFiles _ _).2 h
    rw [folder_of_leads hp hq] at hg
    cases hg

/-- A second save makes the tree what it would have been without the first. -/
theorem save_after_save (h : t.save path d = (u, .ok ())) (d' : Document) :
    u.save path d' = t.save path d' := by
  obtain ⟨v, hw, hp, rfl⟩ := save_eq_ok h
  obtain ⟨hc, hs, -, n, hl, hn, hd, hf⟩ := placeOf_eq_ok_iff.1 hp
  -- the way has been made, so only the file is written again
  have hd' := hd.mono (foldersKept_insert hf (octets d.pretty))
  have hw' := makeWay_of_passable hc (hd'.of_isPrefix (stepsOf_folderParts_isPrefix hl))
  have hf' : (v.insert (placeNamed path) (.file (octets d.pretty))).get? (placeNamed path) ≠
      some .folder := by
    rw [get?_insert v (ne_nil_of_get? hf), if_pos rfl]
    exact fun h => nomatch h
  have hp' := placeOf_eq_ok_iff.2 ⟨hc, hs, rfl, n, hl, hn, hd', hf'⟩
  rw [save, save, hw', hw]
  dsimp only
  rw [write, write, hp', hp]
  dsimp only
  rw [insert_insert]

/-- What a save does to a tree. It fails exactly if the path is unfit, and then no more happens
than that folders on the path's way are added. If it succeeds, all of these are there, the file
at the path holds the text of the document, every other entry is as it was, and a further save
leaves no trace of this one. -/
theorem save_effect (t : Tree) (path : List Char) (d : Document) :
    let added (u : Tree) (q : Place) :=
      t.get? q = none ∧ u.get? q = some .folder ∧ Leads path q
    match t.save path d with
    | (u, .error _) => t.Refuses path ∧ ∀ q, u.get? q = t.get? q ∨ added u q
    | (u, .ok ()) => ¬ t.Refuses path ∧ (∀ q, Leads path q → u.get? q = some .folder) ∧
      u.get? (placeNamed path) = some (.file d.written) ∧ u.read path = .ok d.written ∧
      (∀ q, q ≠ placeNamed path → u.get? q = t.get? q ∨ added u q) ∧
      ∀ d', u.save path d' = t.save path d' := by
  intro added
  have hw := makeWay_onlyAdds t path
  rcases hs : t.save path d with ⟨u, e | _⟩
  · refine ⟨refuses_of_save (congrArg Prod.snd hs), ?_⟩
    rcases t.save_cases path d with ⟨v, e', he, ha⟩ | ⟨v, he, -⟩
    · rw [hs] at he
      cases he
      exact ha.leads
    · rw [hs] at he
      cases he
  · obtain ⟨v, hv, hp, rfl⟩ := save_eq_ok hs
    rw [hv] at hw
    obtain ⟨-, -, -, n, -, -, -, hf⟩ := placeOf_eq_ok_iff.1 hp
    have hg := get?_insert v (ne_nil_of_get? hf) (.file (octets d.pretty))
    refine ⟨not_refuses_of_save hs, ?_, ?_, ?_, ?_, save_after_save hs⟩
    · intro q hq
      exact foldersKept_insert hf _ q (folder_of_leads hp hq)
    · rw [hg, if_pos rfl, Document.written_eq]
    · rw [read_of_save hs, Document.written_eq]
    · intro q hq
      have hq' := hg q
      rw [if_neg hq] at hq'
      simp only [added, hq']
      exact hw.leads q

end SchemaSnapshot.File.Tree
