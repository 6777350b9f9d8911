import Mathlib.Data.List.Nodup
import SchemaSnapshot.CommandLine.Options
import SchemaSnapshot.Proofs.Text.Split

namespace SchemaSnapshot.CommandLine

/-- An argument that can be a value, as it cannot be taken for a switch. -/
def IsPlain (a : List Char) : Prop :=
  a.head? = some '-' → a = ['-']

def dashes : List Char := ['-', '-']

def Switch.dashed (s : Switch) : List Char :=
  dashes ++ s.name

def Switch.joined (s : Switch) (v : List Char) : List Char :=
  s.dashed ++ '=' :: v

/-- The arguments give these switches these values, in this order. -/
inductive Spells : List (List Char) → List (Switch × List Char) → Prop
  | nil : Spells [] []
  | dashes : Spells [dashes] []
  | joined : s.takesValue = true → Spells r gs → Spells (s.joined v :: r) ((s, v) :: gs)
  | apart : s.takesValue = true → IsPlain v → Spells r gs →
    Spells (s.dashed :: v :: r) ((s, v) :: gs)

/-- What a list of arguments gives when a switch is pending. -/
inductive Resumes : Pending → List (List Char) → List (Switch × List Char) → Prop
  | none : Spells r gs → Resumes .none r gs
  | given : Spells r gs → Resumes (.given s v) r ((s, v) :: gs)
  | awaiting : IsPlain v → Spells r gs → Resumes (.awaiting s) (v :: r) ((s, v) :: gs)

/-- No switch is given twice, and an output has a name. -/
def Acceptable (gs : List (Switch × List Char)) : Prop :=
  (gs.map Prod.fst).Nodup ∧ ∀ v, (Switch.output, v) ∈ gs → v ≠ []

def optionsOf (gs : List (Switch × List Char)) : Options :=
  ⟨valueOr gs .endpoint Fetch.defaultEndpoint, valueOr gs .output Fetch.defaultOutput⟩

variable {s t u : State} {switch : Switch} {a v : List Char}
  {r : List (List Char)} {o : Options}
  {gs hs : List (Switch × List Char)}

theorem Switch.ofName?_name (s : Switch) : Switch.ofName? s.name = some s := by
  cases s <;> decide

theorem Switch.name_of_ofName? (h : Switch.ofName? a = some switch) : switch.name = a := by
  simpa using List.find?_some h

theorem Switch.cut_name (s : Switch) : Text.cut (· = '=') s.name = (s.name, []) := by
  cases s <;> decide

theorem Switch.cut_joined (s : Switch) (v : List Char) :
    Text.cut (· = '=') (s.name ++ '=' :: v) = (s.name, '=' :: v) := by
  rw [Text.cut_append_stop s.name v (by simp), Switch.cut_name, List.nil_append]

theorem step_long (h : s.literal = false) (ha : a ≠ []) : s.step (dashes ++ a) = s.long a := by
  cases a with
  | nil => exact absurd rfl ha
  | cons c a => simp [State.step, h, dashes]

theorem step_dashes (h : s.literal = false) :
    s.step dashes = .more { s with literal := true } := by
  simp [State.step, h, dashes]

theorem step_joined (h : s.literal = false) (ht : switch.takesValue = true)
    (hs : s.settle = (t, .ok ())) (ha : t.accept switch v = (u, .ok ())) :
    s.step (switch.joined v) = .more u := by
  rw [Switch.joined, Switch.dashed, List.append_assoc, step_long h (by simp), State.long,
    Switch.cut_joined]
  simp only [Switch.ofName?_name, ht, if_true, State.settled?, hs, ha]

theorem step_dashed (h : s.literal = false) (ht : switch.takesValue = true)
    (hs : s.settle = (t, .ok ())) :
    s.step switch.dashed = .more { t with pending := .awaiting switch } := by
  have hn : switch.name ≠ [] := by cases switch <;> decide
  rw [Switch.dashed, step_long h hn, State.long, Switch.cut_name]
  cases switch with
  | endpoint => simp only [Switch.ofName?_name, State.settled?, hs]
  | output => simp only [Switch.ofName?_name, State.settled?, hs]
  | help => cases ht
  | version => cases ht

theorem step_plain (h : s.literal = false) (ha : IsPlain a) : s.step a = s.plain a := by
  cases a with
  | nil => simp [State.step, h]
  | cons c a =>
    by_cases hc : c = '-'
    · subst hc
      obtain rfl := (List.cons.inj (ha rfl)).2
      simp [State.step, h]
    · simp [State.step, h, hc]

theorem exists_of_settled? {k : State → Outcome} (h : s.settled? k = x)
    (hx : ∀ e, x ≠ .failed e) : ∃ t, s.settle = (t, .ok ()) ∧ k t = x := by
  rw [State.settled?] at h
  rcases hs : s.settle with ⟨t, e | _⟩ <;> rw [hs] at h
  · exact absurd h.symm (hx e)
  · exact ⟨t, rfl, h⟩

theorem settled?_eq_more {k : State → Outcome} (h : s.settled? k = .more u) :
    ∃ t, s.settle = (t, .ok ()) ∧ k t = .more u :=
  exists_of_settled? h fun _ => Outcome.noConfusion

theorem short_ne_more (s : State) (c : Char) : s.short c ≠ .more t := by
  rw [State.short]
  split
  · intro h
    obtain ⟨_, -, h⟩ := settled?_eq_more h
    cases h
  · split
    · intro h
      obtain ⟨_, -, h⟩ := settled?_eq_more h
      cases h
    · exact Outcome.noConfusion

/-- What an argument with two hyphens can be if it is not the last one. -/
theorem long_cases (h : s.long a = .more u) :
    ∃ switch t, switch.takesValue = true ∧ s.settle = (t, .ok ()) ∧
      ((∃ v, dashes ++ a = switch.joined v ∧ t.accept switch v = (u, .ok ())) ∨
        dashes ++ a = switch.dashed ∧ u = { t with pending := .awaiting switch }) := by
  rw [State.long] at h
  rcases hc : Text.cut (· = '=') a with ⟨name, rest⟩
  simp only [hc] at h
  have ha := Text.append_of_cut hc
  cases hn : Switch.ofName? name with
  | none =>
    simp only [hn] at h
    cases h
  | some switch =>
    obtain rfl := Switch.name_of_ofName? hn
    cases rest with
    | nil =>
      rw [List.append_nil] at ha
      -- what `help` and `version` ask for is never more
      cases switch <;> simp only [hn] at h <;> obtain ⟨t, hs, ht⟩ :=
        settled?_eq_more h <;> cases ht
      · exact ⟨.endpoint, t, rfl, hs, .inr ⟨ha ▸ rfl, rfl⟩⟩
      · exact ⟨.output, t, rfl, hs, .inr ⟨ha ▸ rfl, rfl⟩⟩
    | cons c v =>
      obtain rfl : c = '=' := by simpa using Text.stop_of_cut hc
      simp only [hn] at h
      split at h
      · rename_i ht
        obtain ⟨t, hs, hk⟩ := settled?_eq_more h
        refine ⟨switch, t, ht, hs, .inl ⟨v, ?_, ?_⟩⟩
        · rw [← ha, Switch.joined, Switch.dashed, List.append_assoc]
        · rcases hv : t.accept switch v with ⟨u', e | _⟩ <;> rw [hv] at hk <;> cases hk
          rfl
      · cases h

theorem plain_eq_more (h : s.plain a = .more u) :
    s.literal = false ∧ ∃ switch, s.pending = .awaiting switch ∧
      u = { s with pending := .given switch a } := by
  rw [State.plain] at h
  split at h
  · rename_i switch hp
    split at h
    · cases h
    · rename_i hl
      cases h
      exact ⟨by simpa using hl, switch, hp, rfl⟩
  · cases h

/-- All that an argument can do that does not end the reading. -/
theorem step_cases (hl : s.literal = false) (h : s.step a = .more u) :
    (a = dashes ∧ u = { s with literal := true }) ∨
    (IsPlain a ∧ ∃ switch, s.pending = .awaiting switch ∧
      u = { s with pending := .given switch a }) ∨
    ∃ switch t, switch.takesValue = true ∧ s.settle = (t, .ok ()) ∧
      ((∃ v, a = switch.joined v ∧ t.accept switch v = (u, .ok ())) ∨
        a = switch.dashed ∧ u = { t with pending := .awaiting switch }) := by
  by_cases hp : IsPlain a
  · rw [step_plain hl hp] at h
    exact .inr (.inl ⟨hp, (plain_eq_more h).2⟩)
  · rw [IsPlain, Classical.not_imp] at hp
    obtain ⟨hd, hn⟩ := hp
    cases a with
    | nil => cases hd
    | cons c a =>
      obtain rfl := Option.some.inj hd
      cases a with
      | nil => exact absurd rfl hn
      | cons d a =>
        by_cases hd : d = '-'
        · subst hd
          cases a with
          | nil =>
            rw [← dashes, step_dashes hl] at h
            cases h
            exact .inl ⟨rfl, rfl⟩
          | cons d a =>
            have hr : d :: a ≠ [] := List.cons_ne_nil _ _
            have he : '-' :: '-' :: d :: a = dashes ++ d :: a := rfl
            rw [he] at h ⊢
            rw [step_long hl hr] at h
            exact .inr (.inr (long_cases h))
        · have hs : s.step ('-' :: d :: a) = s.short d := by simp [State.step, hl, hd]
          exact absurd (hs.symm.trans h) (short_ne_more s d)

def Outcome.Early : Outcome → Prop
  | .asked (.fetch _) => False
  | _ => True

theorem early_settled? {k : State → Outcome} (h : ∀ t, (k t).Early) : (s.settled? k).Early := by
  rw [State.settled?]
  rcases s.settle with ⟨t, e | _⟩
  · trivial
  · exact h t

theorem early_accept (t : State) (switch : Switch) (v : List Char) :
    Outcome.Early (match t.accept switch v with
      | (u, .ok ()) => .more u
      | (_, .error e) => .failed e) := by
  rcases t.accept switch v with ⟨u, e | _⟩ <;> trivial

theorem early_long (s : State) (a : List Char) : (s.long a).Early := by
  rw [State.long]
  dsimp only
  split
  · split
    · exact early_settled? fun t => early_accept t _ _
    · trivial
  · exact early_settled? fun _ => trivial
  · exact early_settled? fun _ => trivial
  · exact early_settled? fun _ => trivial
  · trivial

theorem early_short (s : State) (c : Char) : (s.short c).Early := by
  rw [State.short]
  split
  · exact early_settled? fun _ => trivial
  · split
    · exact early_settled? fun _ => trivial
    · trivial

theorem early_plain (s : State) (a : List Char) : (s.plain a).Early := by
  rw [State.plain]
  split
  · split <;> trivial
  · trivial

theorem early_step (s : State) (a : List Char) : (s.step a).Early := by
  unfold State.step
  split
  · exact early_plain s a
  · split
    · trivial
    · exact early_long s _
    · exact early_short s _
    · exact early_plain s _

theorem readFrom_cons (h : readFrom s (a :: r) = .ok (.fetch o)) :
    ∃ t, s.step a = .more t ∧ readFrom t r = .ok (.fetch o) := by
  have he := early_step s a
  rw [readFrom] at h
  cases hs : s.step a with
  | more t => exact ⟨t, rfl, by simpa only [hs] using h⟩
  | failed e =>
    rw [hs] at h
    cases h
  | asked c =>
    rw [hs] at h he
    cases h
    exact he.elim

theorem eq_nil_of_literal (hl : s.literal = true) (h : readFrom s r = .ok (.fetch o)) :
    r = [] := by
  cases r with
  | nil => rfl
  | cons a r =>
    obtain ⟨t, ht, -⟩ := readFrom_cons h
    unfold State.step at ht
    rw [if_pos hl] at ht
    rw [(plain_eq_more ht).1] at hl
    cases hl

theorem acceptable_concat : Acceptable (gs ++ [(switch, v)]) ↔
    Acceptable gs ∧ switch ∉ gs.map Prod.fst ∧ (switch = .output → v ≠ []) := by
  simp only [Acceptable, List.map_append, List.map_cons, List.map_nil, List.nodup_append,
    List.nodup_singleton, true_and, List.mem_append, List.mem_singleton, Prod.mk.injEq]
  constructor
  · rintro ⟨⟨hg, hn⟩, hv⟩
    exact ⟨⟨hg, fun w hw => hv w (.inl hw)⟩, fun hm => hn _ hm _ rfl rfl,
      fun hs => hv v (.inr ⟨hs.symm, rfl⟩)⟩
  · rintro ⟨⟨hg, hw⟩, hn, hv⟩
    refine ⟨⟨hg, ?_⟩, ?_⟩
    · rintro x hx y rfl rfl
      exact hn hx
    · rintro w (hm | ⟨rfl, rfl⟩)
      · exact hw w hm
      · exact hv rfl

theorem Acceptable.left (h : Acceptable (gs ++ hs)) : Acceptable gs := by
  obtain ⟨hn, hv⟩ := h
  rw [List.map_append] at hn
  exact ⟨(List.nodup_append.1 hn).1, fun v hm => hv v (List.mem_append_left hs hm)⟩

theorem accept_eq_ok_iff : s.accept switch v = (t, .ok ()) ↔
    t = { s with settled := s.settled ++ [(switch, v)] } ∧ switch ∉ s.used ∧
      (switch = .output → v ≠ []) := by
  rw [State.accept]
  split
  · simp [*]
  · split
    · simp [*]
    · simp_all [eq_comm]

/-- A pending switch is settled as one that is given. -/
theorem settle_cases (h : s.settle = (t, .ok ())) :
    t.pending = .none ∧ t.literal = s.literal ∧
      (s.pending = .none ∧ t.settled = s.settled ∨
        ∃ switch v, s.pending = .given switch v ∧ t.settled = s.settled ++ [(switch, v)] ∧
          (Acceptable s.settled → Acceptable t.settled)) := by
  rw [State.settle] at h
  split at h
  · rename_i hp
    obtain ⟨rfl, -⟩ := Prod.mk.inj h
    exact ⟨rfl, rfl, .inl ⟨hp, rfl⟩⟩
  · cases h
  · rename_i switch v hp
    obtain ⟨rfl, hu, hv⟩ := accept_eq_ok_iff.1 h
    exact ⟨rfl, rfl, .inr ⟨switch, v, hp, rfl, fun ha => acceptable_concat.2 ⟨ha, hu, hv⟩⟩⟩

theorem resumes_of_settle (hs : s.settle = (t, .ok ())) (h : Spells r gs) :
    ∃ hs, Resumes s.pending r hs ∧ s.settled ++ hs = t.settled ++ gs := by
  obtain ⟨-, -, ⟨hp, ht⟩ | ⟨switch, v, hp, ht, -⟩⟩ := settle_cases hs
  · exact ⟨gs, hp ▸ .none h, ht ▸ rfl⟩
  · refine ⟨(switch, v) :: gs, hp ▸ .given h, ?_⟩
    rw [ht, List.append_assoc, List.singleton_append]

theorem acceptable_settle (hs : s.settle = (t, .ok ())) (h : Acceptable s.settled) :
    Acceptable t.settled := by
  obtain ⟨-, -, ⟨-, ht⟩ | ⟨switch, v, -, -, ha⟩⟩ := settle_cases hs
  · rwa [ht]
  · exact ha h

theorem finish_eq_ok_iff : s.finish = .ok (.fetch o) ↔
    ∃ t, s.settle = (t, .ok ()) ∧ o = optionsOf t.settled := by
  rw [State.finish]
  rcases s.settle with ⟨t, e | _⟩
  · simp
  · simp [State.options, optionsOf, Options.standard, eq_comm]

theorem resumes_of_finish (h : s.finish = .ok (.fetch o)) (ha : Acceptable s.settled)
    (hr : Spells r []) :
    ∃ gs, Resumes s.pending r gs ∧ Acceptable (s.settled ++ gs) ∧
      o = optionsOf (s.settled ++ gs) := by
  obtain ⟨t, hs, rfl⟩ := finish_eq_ok_iff.1 h
  obtain ⟨gs, hg, he⟩ := resumes_of_settle hs hr
  rw [List.append_nil] at he
  exact ⟨gs, hg, he ▸ acceptable_settle hs ha, he ▸ rfl⟩

/-- Arguments that are read to their end give what they spell. -/
theorem resumes_of_readFrom (h : readFrom s r = .ok (.fetch o)) (hl : s.literal = false)
    (ha : Acceptable s.settled) :
    ∃ gs, Resumes s.pending r gs ∧ Acceptable (s.settled ++ gs) ∧
      o = optionsOf (s.settled ++ gs) := by
  -- the invariant is that what has been settled is acceptable, whatever is pending
  induction r generalizing s with
  | nil => exact resumes_of_finish h ha .nil
  | cons a r ih =>
    obtain ⟨u, hu, h⟩ := readFrom_cons h
    rcases step_cases hl hu with ⟨rfl, rfl⟩ | ⟨hp, switch, hs, rfl⟩ |
      ⟨switch, t, ht, hs, ⟨v, rfl, hv⟩ | ⟨rfl, rfl⟩⟩
    · obtain rfl := eq_nil_of_literal rfl h
      exact @resumes_of_finish { s with literal := true } _ _ h ha .dashes
    · obtain ⟨gs, hr, hg, ho⟩ := ih h hl ha
      cases hr with
      | given hr => exact ⟨_, hs ▸ .awaiting hp hr, hg, ho⟩
    · obtain ⟨hn, hl', -⟩ := settle_cases hs
      obtain ⟨rfl, hu, hv⟩ := accept_eq_ok_iff.1 hv
      have ha' := acceptable_concat.2 ⟨acceptable_settle hs ha, hu, hv⟩
      obtain ⟨gs, hr, hg, ho⟩ := ih h (hl'.trans hl) ha'
      simp only [hn] at hr
      cases hr with
      | none hr =>
        obtain ⟨gs', hr', he⟩ := resumes_of_settle hs (.joined ht hr)
        rw [List.append_assoc, List.singleton_append, ← he] at hg ho
        exact ⟨gs', hr', hg, ho⟩
    · obtain ⟨-, hl', -⟩ := settle_cases hs
      have ha' := acceptable_settle hs ha
      obtain ⟨gs, hr, hg, ho⟩ := ih h (hl'.trans hl) ha'
      cases hr with
      | awaiting hp hr =>
        obtain ⟨gs', hr', he⟩ := resumes_of_settle hs (.apart ht hp hr)
        rw [← he] at hg ho
        exact ⟨gs', hr', hg, ho⟩

theorem accept_of_acceptable (h : Acceptable (t.settled ++ (switch, v) :: gs)) :
    t.accept switch v = ({ t with settled := t.settled ++ [(switch, v)] }, .ok ()) := by
  rw [← List.singleton_append, ← List.append_assoc] at h
  exact accept_eq_ok_iff.2 ⟨rfl, (acceptable_concat.1 h.left).2⟩

theorem settle_of_none (h : s.pending = .none) : s.settle = (s, .ok ()) := by
  cases s
  cases h
  rfl

theorem settle_literal (h : s.settle = (t, .ok ())) :
    State.settle { s with literal := true } = ({ t with literal := true }, .ok ()) := by
  rw [State.settle] at h ⊢
  split at h
  · obtain ⟨rfl, -⟩ := Prod.mk.inj h
    simp only [*]
  · cases h
  · obtain ⟨rfl, ha⟩ := accept_eq_ok_iff.1 h
    simp only [*]
    exact accept_eq_ok_iff.2 ⟨rfl, ha⟩

theorem readFrom_awaiting (hl : t.literal = false) (hp : IsPlain v) :
    readFrom { t with pending := .awaiting switch } (v :: r) =
      readFrom { t with pending := .given switch v } r := by
  have hs : State.step { t with pending := .awaiting switch } v =
      .more { t with pending := .given switch v } := by
    rw [@step_plain { t with pending := .awaiting switch } v hl hp, State.plain]
    simp only [hl, Bool.false_eq_true, if_false]
  rw [readFrom, hs]

/-- What is spelt is read, whether or not a switch that was given is still pending. -/
theorem readFrom_of_spells (h : Spells r gs) (hl : s.literal = false)
    (hs : s.settle = (t, .ok ())) (ha : Acceptable (t.settled ++ gs)) :
    readFrom s r = .ok (.fetch (optionsOf (t.settled ++ gs))) := by
  induction h generalizing s t with
  | nil =>
    rw [List.append_nil]
    exact finish_eq_ok_iff.2 ⟨t, hs, rfl⟩
  | dashes =>
    rw [List.append_nil, readFrom, step_dashes hl]
    exact finish_eq_ok_iff.2 ⟨_, settle_literal hs, rfl⟩
  | @joined r gs switch v ht _ ih =>
    obtain ⟨hn, hl', -⟩ := settle_cases hs
    have hv := accept_of_acceptable ha
    rw [readFrom, step_joined hl ht hs hv]
    dsimp only
    rw [List.append_cons] at ha
    have hi := @ih ⟨t.settled ++ [(switch, v)], t.pending, t.literal⟩ _ (hl'.trans hl)
      (settle_of_none hn) ha
    rwa [← List.append_cons] at hi
  | @apart v r gs switch ht hp _ ih =>
    -- two arguments are read here; the second leaves the switch pending with its value
    obtain ⟨-, hl', -⟩ := settle_cases hs
    have hv := @accept_of_acceptable { t with pending := .none } _ _ _ ha
    rw [readFrom, step_dashed hl ht hs]
    dsimp only
    rw [readFrom_awaiting (hl'.trans hl) hp]
    rw [List.append_cons] at ha ⊢
    exact @ih { t with pending := .given switch v }
      ⟨t.settled ++ [(switch, v)], .none, t.literal⟩ (hl'.trans hl) hv ha

/-- The arguments that ask for a fetch, and the options that they give it. -/
theorem read_eq_fetch_iff (arguments : List String) (o : Options) :
    read arguments = .ok (.fetch o) ↔
      ∃ gs, Spells (arguments.map String.toList) gs ∧ Acceptable gs ∧ o = optionsOf gs := by
  constructor
  · intro h
    obtain ⟨gs, hr, hg⟩ := resumes_of_readFrom h rfl ⟨List.nodup_nil, by simp [State.start]⟩
    cases hr with
    | none hr => exact ⟨gs, hr, hg⟩
  · rintro ⟨gs, hr, hg, rfl⟩
    exact @readFrom_of_spells .start .start _ _ hr rfl rfl hg

end SchemaSnapshot.CommandLine
