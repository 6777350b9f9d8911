import SchemaSnapshot.Proofs.File.Tree

namespace SchemaSnapshot.File.Tree

variable {t u : Tree} {p q : Place} {s : Step} {ss : List Step} {n : Name} {path : List Char}
  {c : List UInt8} {e : IoError} {d : Document} {r : Except IoError Unit}

theorem check_eq_ok_iff :
    check path = .ok () ↔ '\x00' ∉ path ∧ path ≠ [] ∧ octetLength path < maxPathLength := by
  unfold check
  split
  · rename_i h
    simp [h]
  · rename_i h
    split
    · rename_i he
      simp [he]
    · rename_i he
      split
      · simp only [reduceCtorEq, false_iff]
        omega
      · exact ⟨fun _ => ⟨h, he, by omega⟩, fun _ => rfl⟩

theorem check_folderParts (h : check path = .ok ()) (hf : folderParts path ≠ []) :
    check (joinParts (folderParts path)) = .ok () := by
  obtain ⟨hz, _, hl⟩ := check_eq_ok_iff.1 h
  have hp : joinParts (folderParts path) <+: path := by
    have hj := joinParts_isPrefix (folderParts_isPrefix path) hf
    rwa [joinParts_parts] at hj
  have ho := octetLength_le hp
  exact check_eq_ok_iff.2 ⟨fun hm =>
    hz (hp.subset hm), joinParts_folderParts_ne_nil hf, by omega⟩

theorem makeWay_onlyAdds (t : Tree) (path : List Char) :
    t.OnlyAddsFolders (t.makeWay path).1 [] (stepsOf (folderParts path)) := by
  unfold makeWay
  split
  · exact .refl _ _ _
  · split
    · exact .refl _ _ _
    · exact makeFolders_onlyAdds _ _ _ _

theorem makeWay_of_passable (hc : check path = .ok ())
    (h : t.Passable [] (stepsOf (folderParts path))) : t.makeWay path = (t, .ok ()) := by
  unfold makeWay
  split
  · rfl
  · rename_i hf
    simp only [check_folderParts hc hf]
    exact makeFolders_of_passable h false

theorem placeNamed_eq (h : (steps path).getLast? = some s) :
    placeNamed path = advance (resolve [] (steps path).dropLast) s := by
  have hs := List.dropLast_append_getLast? s h
  rw [placeNamed, ← hs, resolve_append, hs, resolve_cons, resolve_nil]

theorem placeOf_eq_ok_iff :
    t.placeOf path = .ok q ↔ check path = .ok () ∧ endsInSlash path = false ∧
      q = placeNamed path ∧ ∃ n, (steps path).getLast? = some (.name n) ∧
        octetLength n ≤ maxNameLength ∧ t.Passable [] (steps path).dropLast ∧
        t.get? q ≠ some .folder := by
  unfold placeOf
  cases hc : check path with
  | error e => simp [bind, Except.bind]
  | ok _ =>
    cases hl : (steps path).getLast? with
    | none => simp [bind, Except.bind]
    | some s =>
      cases hw : t.walk (steps path).dropLast with
      | error e => simp [bind, Except.bind, not_passable_of_walk hw]
      | ok p =>
        obtain ⟨hp, rfl⟩ := walk_eq_ok_iff.1 hw
        cases s with
        | here => simp [bind, Except.bind]
        | up => simp [bind, Except.bind]
        | name n =>
          simp only [bind, Except.bind, placeNamed_eq hl, advance, hp]
          cases he : endsInSlash path with
          | true => simp
          | false =>
            by_cases hn : maxNameLength < octetLength n
            · simp [hn, Nat.not_le.2 hn]
            · simp only [hn, if_false, Bool.false_eq_true, true_and, Option.some.injEq,
                Step.name.injEq, exists_eq_left', Nat.not_lt.1 hn]
              split
              · rename_i hf
                simp only [reduceCtorEq, false_iff, not_and, not_not]
                rintro rfl
                exact hf
              · rename_i hf
                simp only [Except.ok.injEq]
                exact ⟨fun h => ⟨h.symm, h ▸ hf⟩, fun h => h.1.symm⟩

theorem write_eq_ok (h : (t.write path c).2 = .ok ()) :
    t.placeOf path = .ok (placeNamed path) ∧
      (t.write path c).1 = t.insert (placeNamed path) (.file c) := by
  unfold write at h ⊢
  cases hp : t.placeOf path with
  | error e => simp [hp] at h
  | ok p =>
    obtain ⟨_, _, rfl, _⟩ := placeOf_eq_ok_iff.1 hp
    exact ⟨rfl, rfl⟩

theorem write_eq_error (h : (t.write path c).2 = .error e) : (t.write path c).1 = t := by
  unfold write at h ⊢
  cases hp : t.placeOf path with
  | error e => rfl
  | ok p => simp [hp] at h

theorem read_eq_ok_iff :
    t.read path = .ok c ↔ check path = .ok () ∧ endsInSlash path = false ∧
      ∃ n, (steps path).getLast? = some (.name n) ∧ octetLength n ≤ maxNameLength ∧
        t.Passable [] (steps path).dropLast ∧ t.get? (placeNamed path) = some (.file c) := by
  unfold read
  cases hc : check path with
  | error e => simp [bind, Except.bind]
  | ok _ =>
    cases hl : (steps path).getLast? with
    | none => simp [bind, Except.bind]
    | some s =>
      cases hw : t.walk (steps path).dropLast with
      | error e => simp [bind, Except.bind, not_passable_of_walk hw]
      | ok p =>
        obtain ⟨hp, rfl⟩ := walk_eq_ok_iff.1 hw
        cases s with
        | here => simp [bind, Except.bind]
        | up => simp [bind, Except.bind]
        | name n =>
          simp only [bind, Except.bind, placeNamed_eq hl, advance, hp]
          by_cases hn : maxNameLength < octetLength n
          · simp [hn, Nat.not_le.2 hn]
          · cases he : endsInSlash path with
            | true => simp [hn]; split <;> simp
            | false =>
              simp only [hn, if_false, Bool.false_eq_true, true_and, Option.some.injEq,
                Step.name.injEq, exists_eq_left', Nat.not_lt.1 hn]
              split <;> simp_all

theorem ne_nil_of_get? (h : t.get? p ≠ some .folder) : p ≠ [] := by
  rintro rfl
  exact h rfl

theorem foldersKept_insert (h : t.get? p ≠ some .folder) (c : List UInt8) :
    t.FoldersKept (t.insert p (.file c)) := by
  intro q hq
  have hne : q ≠ p := by
    rintro rfl
    exact h hq
  rw [get?_insert t (ne_nil_of_get? h), if_neg hne, hq]

/-- All that a save can do: it fails with no more than folders added, or it writes the text of
the document to the file that the path names after adding folders. -/
theorem save_cases (t : Tree) (path : List Char) (d : Document) :
    (∃ u e, t.save path d = (u, .error e) ∧
      t.OnlyAddsFolders u [] (stepsOf (folderParts path))) ∨
    ∃ u, t.save path d = (u.insert (placeNamed path) (.file (octets d.pretty)), .ok ()) ∧
      t.makeWay path = (u, .ok ()) ∧ t.OnlyAddsFolders u [] (stepsOf (folderParts path)) ∧
      u.placeOf path = .ok (placeNamed path) := by
  have ha := makeWay_onlyAdds t path
  unfold save
  rcases hw : t.makeWay path with ⟨u, e | _⟩ <;> rw [hw] at ha
  · exact .inl ⟨u, e, rfl, ha⟩
  · rcases hr : u.write path (octets d.pretty) with ⟨v, e | _⟩
    · have hv : v = u := by simpa only [hr] using write_eq_error (congrArg Prod.snd hr)
      exact .inl ⟨v, e, hr, hv.symm ▸ ha⟩
    · obtain ⟨hp, hv⟩ := write_eq_ok (congrArg Prod.snd hr)
      rw [hr] at hv
      exact .inr ⟨u, hr.trans (Prod.ext hv rfl), rfl, ha, hp⟩

theorem read_of_save (h : t.save path d = (u, .ok ())) :
    u.read path = .ok (octets d.pretty) := by
  rcases t.save_cases path d with ⟨v, e, he, _⟩ | ⟨v, he, -, _, hp⟩
  · rw [h] at he
    cases he
  · rw [h] at he
    cases he
    obtain ⟨hc, hs, _, n, hl, hn, hw, hf⟩ := placeOf_eq_ok_iff.1 hp
    refine read_eq_ok_iff.2 ⟨hc, hs, n, hl, hn, hw.mono (foldersKept_insert hf _), ?_⟩
    rw [get?_insert v (ne_nil_of_get? hf), if_pos rfl]

/-- Entries that a save to a path changes: missing folders of the path, and the file it names.
-/
def OnlySaves (t u : Tree) (path : List Char) : Prop :=
  ∀ q, u.get? q = t.get? q ∨
    t.get? q = none ∧ u.get? q = some .folder ∧ waysides path q ∨
    t.get? q ≠ some .folder ∧ q = placeNamed path ∧ ∃ c, u.get? q = some (.file c)

theorem OnlyAddsFolders.onlySaves (h : t.OnlyAddsFolders u [] (stepsOf (folderParts path))) :
    t.OnlySaves u path := by
  intro q
  rcases h q with he | hw
  · exact .inl he
  · exact .inr (.inl hw)

theorem onlySaves_of_save (h : t.save path d = (u, r)) : t.OnlySaves u path := by
  rcases t.save_cases path d with ⟨v, e, he, ha⟩ | ⟨v, he, -, ha, hp⟩
  · rw [h] at he
    cases he
    exact ha.onlySaves
  · rw [h] at he
    cases he
    obtain ⟨_, _, _, _, _, _, _, hf⟩ := placeOf_eq_ok_iff.1 hp
    intro q
    rw [get?_insert v (ne_nil_of_get? hf)]
    split
    · rename_i hq
      refine .inr (.inr ⟨fun ht => hf ?_, hq, _, rfl⟩)
      exact hq ▸ ha.foldersKept q ht
    · exact ha.onlySaves q

/-- Both trees have the same files with the same content. -/
def SameFiles (t u : Tree) : Prop :=
  ∀ q c, u.get? q = some (.file c) ↔ t.get? q = some (.file c)

theorem OnlyAddsFolders.sameFiles (h : t.OnlyAddsFolders u p ss) : t.SameFiles u := by
  intro q c
  rcases h q with he | ⟨hn, hf, _⟩
  · rw [he]
  · simp [hn, hf]

theorem sameFiles_of_save (h : t.save path d = (u, .error e)) : t.SameFiles u := by
  rcases t.save_cases path d with ⟨v, e', he, ha⟩ | ⟨v, he, _⟩
  · rw [h] at he
    cases he
    exact ha.sameFiles
  · rw [h] at he
    cases he

theorem save_of_read (h : t.read path = .ok c) (d : Document) :
    (t.save path d).2 = .ok () := by
  obtain ⟨hc, hs, n, hl, hn, hp, hg⟩ := read_eq_ok_iff.1 h
  have hw := makeWay_of_passable hc (hp.of_isPrefix (stepsOf_folderParts_isPrefix hl))
  have ho : t.placeOf path = .ok (placeNamed path) :=
    placeOf_eq_ok_iff.2 ⟨hc, hs, rfl, n, hl, hn, hp, by simp [hg]⟩
  simp only [save, hw, write, ho]

end SchemaSnapshot.File.Tree
