import SchemaSnapshot.File.Tree
import SchemaSnapshot.Proofs.Text.Split

namespace SchemaSnapshot.File

/-- Where one step leads, if it leads anywhere. -/
def advance (p : Place) : Step → Place
  | .here => p
  | .up => p.dropLast
  | .name n => p ++ [n]

def resolve (p : Place) (ss : List Step) : Place :=
  ss.foldl advance p

@[simp] theorem resolve_nil (p : Place) : resolve p [] = p := rfl

@[simp] theorem resolve_cons (p : Place) (s : Step) (ss : List Step) :
    resolve p (s :: ss) = resolve (advance p s) ss := rfl

theorem resolve_append (p : Place) (ss rs : List Step) :
    resolve p (ss ++ rs) = resolve (resolve p ss) rs :=
  List.foldl_append

def placeNamed (path : List Char) : Place :=
  resolve [] (steps path)

/-- The places of the folders that a path leads through. -/
def waysides (path : List Char) (q : Place) : Prop :=
  ∃ ss, ss <+: stepsOf (folderParts path) ∧ q = resolve [] ss

theorem parts_ne_nil (path : List Char) : parts path ≠ [] :=
  Text.split_ne_nil _ path

theorem parts_slash (path : List Char) : parts ('/' :: path) = [] :: parts path :=
  Text.split_separator (by simp) path

theorem parts_cons (hc : c ≠ '/') (hp : parts path = p :: ps) :
    parts (c :: path) = (c :: p) :: ps :=
  Text.split_cons (decide_eq_false hc) hp

theorem joinParts_cons (p : List Char) (h : ps ≠ []) :
    joinParts (p :: ps) = p ++ '/' :: joinParts ps := by
  cases ps with
  | nil => exact absurd rfl h
  | cons q ps => simp [joinParts]

theorem joinParts_parts (path : List Char) : joinParts (parts path) = path := by
  induction path with
  | nil => rfl
  | cons c r ih =>
    by_cases hc : c = '/'
    · rw [hc, parts_slash, joinParts_cons _ (parts_ne_nil r), ih]
      rfl
    · obtain ⟨p, ps, hp⟩ := List.exists_cons_of_ne_nil (parts_ne_nil r)
      rw [hp] at ih
      rw [parts_cons hc hp, ← ih]
      cases ps with
      | nil => simp [joinParts]
      | cons q ps => simp [joinParts]

theorem joinParts_append (ps : List (List Char)) (hp : ps ≠ []) (hq : qs ≠ []) :
    joinParts (ps ++ qs) = joinParts ps ++ '/' :: joinParts qs := by
  induction ps with
  | nil => exact absurd rfl hp
  | cons p ps ih =>
    cases ps with
    | nil => simpa [joinParts] using joinParts_cons p hq
    | cons r ps =>
      have hr : r :: ps ≠ [] := List.cons_ne_nil _ _
      rw [List.cons_append, joinParts_cons p (by simp), ih hr, joinParts_cons p hr]
      simp

theorem joinParts_isPrefix (h : ps <+: qs) (hp : ps ≠ []) : joinParts ps <+: joinParts qs := by
  obtain ⟨rs, rfl⟩ := h
  cases rs with
  | nil => simp
  | cons r rs =>
    rw [joinParts_append ps hp (List.cons_ne_nil _ _)]
    exact List.prefix_append _ _

theorem parts_append (l r : List Char) : parts (l ++ '/' :: r) = parts l ++ parts r :=
  Text.split_append (by simp) l r

theorem exists_lead (h : ps <+: parts path) (hn : ps ≠ []) (hp : ps ≠ parts path) :
    ∃ l r, path = l ++ '/' :: r ∧ parts l = ps := by
  induction path generalizing ps with
  | nil =>
    obtain ⟨p, ps, rfl⟩ := List.exists_cons_of_ne_nil hn
    obtain ⟨qs, hq⟩ := h
    obtain ⟨rfl, he⟩ := List.cons.inj hq
    obtain ⟨rfl, -⟩ := List.append_eq_nil_iff.1 he
    exact absurd rfl hp
  | cons c path ih =>
    obtain ⟨p, ps, rfl⟩ := List.exists_cons_of_ne_nil hn
    by_cases hc : c = '/'
    · subst hc
      rw [parts_slash] at h hp
      obtain ⟨rfl, ht⟩ := List.cons_prefix_cons.1 h
      cases ps with
      | nil => exact ⟨[], path, rfl, rfl⟩
      | cons q ps =>
        obtain ⟨l, r, rfl, hl⟩ := ih ht (List.cons_ne_nil q ps) fun he => hp (he ▸ rfl)
        exact ⟨'/' :: l, r, rfl, by rw [parts_slash, hl]⟩
    · obtain ⟨q, qs, hq⟩ := List.exists_cons_of_ne_nil (parts_ne_nil path)
      rw [parts_cons hc hq] at h hp
      obtain ⟨rfl, ht⟩ := List.cons_prefix_cons.1 h
      have h' : q :: ps <+: parts path := hq ▸ List.cons_prefix_cons.2 ⟨rfl, ht⟩
      have hp' : q :: ps ≠ parts path := by
        intro he
        rw [hq] at he
        exact hp (by rw [(List.cons.inj he).2])
      obtain ⟨l, r, rfl, hl⟩ := ih h' (List.cons_ne_nil q ps) hp'
      exact ⟨c :: l, r, rfl, parts_cons hc hl⟩

theorem folderParts_isPrefix (path : List Char) : folderParts path <+: parts path := by
  have h : ((((parts path).reverse.dropWhile isIdle).drop 1).dropWhile isIdle) <:+
      (parts path).reverse :=
    ((List.dropWhile_suffix _).trans (List.drop_suffix _ _)).trans (List.dropWhile_suffix _)
  rw [← List.reverse_reverse (parts path)]
  exact List.reverse_prefix.2 h

theorem eq_nil_of_ofPart? {part : List Char} (h : Step.ofPart? part = none) : part = [] := by
  unfold Step.ofPart? at h
  split at h <;> simp_all

theorem ofPart?_of_isIdle (h : isIdle q = true) :
    Step.ofPart? q = none ∨ Step.ofPart? q = some .here := by
  simp only [isIdle, Bool.or_eq_true, decide_eq_true_eq] at h
  rcases h with rfl | rfl
  · exact .inl rfl
  · exact .inr rfl

theorem dropIdle_eq_cons {ps : List (List Char)}
    (h : ps.filterMap Step.ofPart? = .name n :: ss) :
    ∃ q rest, ps.dropWhile isIdle = q :: rest ∧ rest.filterMap Step.ofPart? = ss := by
  induction ps with
  | nil => cases h
  | cons p ps ih =>
    by_cases hp : isIdle p = true
    · rw [List.dropWhile_cons_of_pos hp]
      rcases ofPart?_of_isIdle hp with he | he
      · rw [List.filterMap_cons_none he] at h
        exact ih h
      · rw [List.filterMap_cons_some he] at h
        cases h
    · rw [List.dropWhile_cons_of_neg hp]
      refine ⟨p, ps, rfl, ?_⟩
      cases he : Step.ofPart? p with
      | none =>
        exact absurd (by simp [eq_nil_of_ofPart? he, isIdle]) hp
      | some s =>
        rw [List.filterMap_cons_some he] at h
        exact (List.cons.inj h).2

theorem eq_here_of_isIdle (h : ∀ q ∈ ps, isIdle q = true) : ∀ s ∈ stepsOf ps, s = .here := by
  intro s hs
  obtain ⟨q, hq, he⟩ := List.mem_filterMap.1 hs
  rcases ofPart?_of_isIdle (h q hq) with hn | hn
  · rw [hn] at he
    cases he
  · rw [hn] at he
    exact (Option.some.inj he).symm

theorem dropLast_steps (h : (steps path).getLast? = some (.name n)) :
    ∃ rs, (steps path).dropLast = stepsOf (folderParts path) ++ rs ∧ ∀ s ∈ rs, s = .here := by
  have hr : (parts path).reverse.filterMap Step.ofPart? =
      .name n :: (steps path).dropLast.reverse := by
    rw [List.filterMap_reverse, ← List.reverse_concat]
    exact congrArg List.reverse (List.dropLast_append_getLast? _ h).symm
  obtain ⟨q, rest, hq, hs⟩ := dropIdle_eq_cons hr
  have hf : folderParts path = (rest.dropWhile isIdle).reverse := by
    simp only [folderParts, hq, List.drop_succ_cons, List.drop_zero]
  have hd : (steps path).dropLast = stepsOf rest.reverse := by
    rw [stepsOf, List.filterMap_reverse, hs, List.reverse_reverse]
  refine ⟨stepsOf (rest.takeWhile isIdle).reverse, ?_, ?_⟩
  · rw [hd, hf, stepsOf, stepsOf, stepsOf, ← List.filterMap_append, ← List.reverse_append,
      List.takeWhile_append_dropWhile]
  · apply eq_here_of_isIdle
    intro p hp
    exact List.all_eq_true.1 List.all_takeWhile p (List.mem_reverse.1 hp)

theorem stepsOf_folderParts_isPrefix (h : (steps path).getLast? = some (.name n)) :
    stepsOf (folderParts path) <+: (steps path).dropLast := by
  obtain ⟨rs, hd, -⟩ := dropLast_steps h
  rw [hd]
  exact List.prefix_append _ _

theorem folderParts_getLast (h : folderParts path ≠ []) :
    isIdle ((folderParts path).getLast h) = false := by
  simp only [folderParts, List.getLast_reverse]
  exact List.head_dropWhile_not _ _

theorem joinParts_folderParts_ne_nil (h : folderParts path ≠ []) :
    joinParts (folderParts path) ≠ [] := by
  have hl := folderParts_getLast h
  intro he
  cases hf : folderParts path with
  | nil => exact h hf
  | cons p ps =>
    cases ps with
    | nil =>
      have hp : p = [] := by simpa [hf, joinParts] using he
      simp [hf, hp, isIdle] at hl
    | cons q ps =>
      rw [hf, joinParts_cons p (List.cons_ne_nil _ _)] at he
      simp at he

theorem folderParts_ne_parts (path : List Char) : folderParts path ≠ parts path := by
  intro h
  have hp := List.length_pos_of_ne_nil (parts_ne_nil path)
  have hl := congrArg List.length h
  have h₁ := ((parts path).reverse.dropWhile_suffix isIdle).length_le
  have h₂ := (((parts path).reverse.dropWhile isIdle).drop 1 |>.dropWhile_suffix
    isIdle).length_le
  simp only [folderParts, List.length_reverse, List.length_drop] at hl h₁ h₂
  omega

/-- The places that a path names on its way, up to one of its slashes. -/
def Leads (path : List Char) (q : Place) : Prop :=
  ∃ l r, path = l ++ '/' :: r ∧ q = placeNamed l

theorem leads_of_isPrefix (h : ss <+: stepsOf (folderParts path)) (hn : ss ≠ []) :
    Leads path (resolve [] ss) := by
  obtain ⟨ps, hp, rfl⟩ := List.prefix_filterMap_iff.1 h
  have hps : ps ≠ [] := by
    rintro rfl
    exact hn rfl
  have hne : ps ≠ parts path := by
    rintro rfl
    exact folderParts_ne_parts path ((folderParts_isPrefix path).eq_of_length_le hp.length_le)
  obtain ⟨l, r, hl, rfl⟩ := exists_lead (hp.trans (folderParts_isPrefix path)) hps hne
  exact ⟨l, r, hl, rfl⟩

theorem steps_append (l r : List Char) : steps (l ++ '/' :: r) = steps l ++ steps r := by
  rw [steps, parts_append, stepsOf, List.filterMap_append]
  rfl

theorem endsInSlash_of_steps (l : List Char) {r : List Char} (h : steps r = []) :
    endsInSlash (l ++ '/' :: r) = true := by
  induction r generalizing l with
  | nil => simp [endsInSlash]
  | cons c r ih =>
    by_cases hc : c = '/'
    · subst hc
      rw [List.append_cons]
      rw [steps, parts_slash] at h
      exact ih (l ++ ['/']) h
    · obtain ⟨p, ps, hp⟩ := List.exists_cons_of_ne_nil (parts_ne_nil r)
      rw [steps, parts_cons hc hp, stepsOf, List.filterMap_eq_nil_iff] at h
      exact absurd (eq_nil_of_ofPart? (h _ List.mem_cons_self)) (List.cons_ne_nil c p)

theorem steps_isPrefix_dropLast (h : endsInSlash (l ++ '/' :: r) = false) :
    steps l <+: (steps (l ++ '/' :: r)).dropLast := by
  have hr : steps r ≠ [] := by
    intro hr
    rw [endsInSlash_of_steps l hr] at h
    cases h
  rw [steps_append, List.dropLast_append_of_ne_nil hr]
  exact List.prefix_append _ _

theorem octetLength_le (h : cs <+: ds) : octetLength cs ≤ octetLength ds := by
  obtain ⟨es, rfl⟩ := h
  simp [octetLength, Utf8.encode]

end SchemaSnapshot.File
