import SchemaSnapshot.Proofs.File.Overwrite

namespace SchemaSnapshot.File.Tree

variable {t u v : Tree} {path other : List Char} {d e : Document}

/-- What is where in a tree after a save that succeeded. -/
structure Saved (t : Tree) (path : List Char) (d : Document) (u : Tree) : Prop where
  file : u.get? (placeNamed path) = some (.file (octets d.pretty))
  folder : ∀ {q}, Leads path q → u.get? q = some .folder
  rest : ∀ {q}, q ≠ placeNamed path → ¬ Leads path q → u.get? q = t.get? q

theorem saved_of_save (h : t.save path d = (u, .ok ())) : t.Saved path d u := by
  obtain ⟨v, hw, hp, rfl⟩ := save_eq_ok h
  have ha := makeWay_onlyAdds t path
  rw [hw] at ha
  obtain ⟨-, -, -, n, -, -, -, hf⟩ := placeOf_eq_ok_iff.1 hp
  have hg := get?_insert v (ne_nil_of_get? hf) (.file (octets d.pretty))
  refine ⟨by rw [hg, if_pos rfl], ?_, ?_⟩
  · intro q hq
    exact foldersKept_insert hf _ q (folder_of_leads hp hq)
  · intro q hq hl
    rw [hg, if_neg hq]
    rcases ha.leads q with he | ⟨-, -, hl'⟩
    · exact he
    · exact absurd hl' hl

theorem exists_save_of_not_refuses (h : ¬ t.Refuses path) (d : Document) :
    ∃ u, t.save path d = (u, .ok ()) := by
  rcases hs : t.save path d with ⟨u, e | _⟩
  · exact absurd (refuses_of_save (congrArg Prod.snd hs)) h
  · exact ⟨u, rfl⟩

/-- What makes a path unfit lies in the path, or else in what is where in the tree. -/
theorem Refuses.in_path_or_tree (hr : t.Refuses other) :
    (∀ u : Tree, u.Refuses other) ∨ t.get? (placeNamed other) = some .folder ∨
      ∃ q c, Leads other q ∧ t.get? q = some (.file c) := by
  cases hr with
  | nul hz => exact .inl fun _ => .nul hz
  | empty he => exact .inl fun _ => .empty he
  | long hl => exact .inl fun _ => .long hl
  | longName hm hl => exact .inl fun _ => .longName hm hl
  | slash he => exact .inl fun _ => .slash he
  | unnamed hl => exact .inl fun _ => .unnamed hl
  | ownFolder hl => exact .inl fun _ => .ownFolder hl
  | folder hf => exact .inr (.inl hf)
  | file hl hf => exact .inr (.inr ⟨_, _, hl, hf⟩)

/-- A save makes no path fit that was not. -/
theorem Refuses.after_save (hr : t.Refuses other) (h : t.save path d = (u, .ok ())) :
    u.Refuses other := by
  have hs := saved_of_save h
  have hn := not_refuses_of_save h
  rcases hr.in_path_or_tree with hr | hf | ⟨q, c, hl, hf⟩
  · exact hr u
  · refine .folder ?_
    by_cases hl : Leads path (placeNamed other)
    · exact hs.folder hl
    · have hq : placeNamed other ≠ placeNamed path := by
        intro hq
        exact hn (.folder (hq ▸ hf))
      rw [hs.rest hq hl, hf]
  · by_cases hq : q = placeNamed path
    · exact .file hl (hq ▸ hs.file)
    · have hl' : ¬ Leads path q := fun hl' => hn (.file hl' hf)
      exact .file hl ((hs.rest hq hl').trans hf)

/-- A save makes a path unfit only if one of the two leads through the place of the other's
file. -/
theorem Refuses.before_save (hr : u.Refuses other) (h : t.save path d = (u, .ok ())) :
    t.Refuses other ∨ Leads path (placeNamed other) ∨ Leads other (placeNamed path) := by
  have hs := saved_of_save h
  rcases hr.in_path_or_tree with hr | hf | ⟨q, c, hl, hf⟩
  · exact .inl (hr t)
  · by_cases hl : Leads path (placeNamed other)
    · exact .inr (.inl hl)
    · have hq : placeNamed other ≠ placeNamed path := by
        intro hq
        rw [hq, hs.file] at hf
        cases hf
      exact .inl (.folder ((hs.rest hq hl).symm.trans hf))
  · by_cases hq : q = placeNamed path
    · exact .inr (.inr (hq ▸ hl))
    · have hl' : ¬ Leads path q := by
        intro hl'
        rw [hs.folder hl'] at hf
        cases hf
      exact .inl (.file hl ((hs.rest hq hl').symm.trans hf))

/-- Where two saves succeed one after the other, neither path leads through the other's file. -/
theorem not_leads_of_saves (hp : t.save path d = (u, .ok ()))
    (hq : u.save other e = (v, .ok ())) :
    ¬ Leads other (placeNamed path) ∧ ¬ Leads path (placeNamed other) := by
  have hs := saved_of_save hp
  have hn := not_refuses_of_save hq
  exact ⟨fun hl => hn (.file hl hs.file), fun hl => hn (.folder (hs.folder hl))⟩

/-- Two saves that succeed one after the other, to different files, succeed in the other order
too and leave the same tree. -/
theorem save_comm (hne : placeNamed path ≠ placeNamed other)
    (hp : t.save path d = (u, .ok ())) (hq : u.save other e = (v, .ok ())) :
    ∃ u' v', t.save other e = (u', .ok ()) ∧ u'.save path d = (v', .ok ()) ∧
      ∀ r, v'.get? r = v.get? r := by
  obtain ⟨hl, hl'⟩ := not_leads_of_saves hp hq
  obtain ⟨u', hq'⟩ : ∃ u', t.save other e = (u', .ok ()) :=
    exists_save_of_not_refuses (fun hr => not_refuses_of_save hq (hr.after_save hp)) e
  obtain ⟨v', hp'⟩ : ∃ v', u'.save path d = (v', .ok ()) := by
    refine exists_save_of_not_refuses (fun hr => ?_) d
    rcases hr.before_save hq' with hr | h | h
    · exact not_refuses_of_save hp hr
    · exact hl h
    · exact hl' h
  refine ⟨u', v', hq', hp', fun r => ?_⟩
  have hu := saved_of_save hp
  have hv := saved_of_save hq
  have hu' := saved_of_save hq'
  have hv' := saved_of_save hp'
  by_cases hr : r = placeNamed path
  · subst hr
    rw [hv'.file, hv.rest hne hl, hu.file]
  by_cases hr' : r = placeNamed other
  · subst hr'
    rw [hv.file, hv'.rest hr hl', hu'.file]
  -- elsewhere there is a folder if one of the paths leads there, and else what was there before
  by_cases hp : Leads path r
  · rw [hv'.folder hp]
    by_cases hq : Leads other r
    · rw [hv.folder hq]
    · rw [hv.rest hr' hq, hu.folder hp]
  · rw [hv'.rest hr hp]
    by_cases hq : Leads other r
    · rw [hu'.folder hq, hv.folder hq]
    · rw [hu'.rest hr' hq, hv.rest hr' hq, hu.rest hr hp]

/-- One path goes up again from a folder that only the other one keeps a file in. -/
theorem save_comm_through_folders :
    let up : List Char := "a/b/../f".toList
    let down : List Char := "./a//b/g".toList
    let null : Document := ⟨.null⟩
    let text : Document := ⟨.string ""⟩
    let left : Tree := ⟨[([['a']], .folder), ([['a'], ['b']], .folder),
      ([['a'], ['f']], .file (octets null.pretty))]⟩
    let right : Tree := ⟨left.entries ++ [([['a'], ['b'], ['g']], .file (octets text.pretty))]⟩
    placeNamed up ≠ placeNamed down ∧ empty.save up null = (left, .ok ()) ∧
      left.save down text = (right, .ok ()) ∧
      ∃ u' v', empty.save down text = (u', .ok ()) ∧ u'.save up null = (v', .ok ()) ∧
        ∀ r, v'.get? r = right.get? r := by
  intro up down null text left right
  have hne : placeNamed up ≠ placeNamed down := by decide
  have hp : empty.save up null = (left, .ok ()) := rfl
  have hq : left.save down text = (right, .ok ()) := rfl
  exact ⟨hne, hp, hq, save_comm hne hp hq⟩

end SchemaSnapshot.File.Tree
