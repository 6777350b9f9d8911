import SchemaSnapshot.Proofs.Program

namespace SchemaSnapshot

namespace CommandLine

/-- The arguments that give a switch this value. A value that the switch has anyway need not be
given. -/
inductive Switch.Given (switch : Switch) (standard value : String) : List String → Prop
  | joined : Given switch standard value [String.ofList (switch.joined value.toList)]
  | apart : Given switch standard value [String.ofList switch.dashed, value]
  | omitted : value = standard → Given switch standard value []

/-- The arguments that give these options, in either order. -/
def Options.Given (o : Options) (arguments : List String) : Prop :=
  ∃ endpoint output, Switch.endpoint.Given Fetch.defaultEndpoint o.endpoint endpoint ∧
    Switch.output.Given Fetch.defaultOutput o.output output ∧
    (arguments = endpoint ++ output ∨ arguments = output ++ endpoint)

/-- The argument gives the switch, with or without its value. -/
def Switch.NamedBy (switch : Switch) (a : List Char) : Prop :=
  a = switch.dashed ∨ ∃ v, a = switch.joined v

/-- The argument asks what the program says about itself. -/
def AsksAbout (a : List Char) : Prop :=
  a = Switch.help.dashed ∨ a = Switch.version.dashed ∨ ['-', 'h'] <+: a ∨ ['-', 'V'] <+: a

instance : DecidablePred AsksAbout := fun _ => inferInstanceAs (Decidable (_ ∨ _))

variable {s t : State} {switch : Switch} {a v : List Char} {r : List (List Char)} {o : Options}
  {gs hs : List (Switch × List Char)} {standard value : String} {arguments : List String}
  {c : Command}

theorem Switch.Given.spells (h : switch.Given standard value arguments)
    (ht : switch.takesValue = true) (hv : IsPlain value.toList) :
    ∃ gs, (gs = [(switch, value.toList)] ∨ gs = [] ∧ value = standard) ∧
      ∀ r hs, Spells r hs → Spells (arguments.map String.toList ++ r) (gs ++ hs) := by
  cases h with
  | joined =>
    refine ⟨_, .inl rfl, ?_⟩
    intro r hs hr
    rw [List.map_singleton, String.toList_ofList]
    exact .joined ht hr
  | apart =>
    refine ⟨_, .inl rfl, ?_⟩
    intro r hs hr
    rw [List.map_cons, List.map_singleton, String.toList_ofList]
    exact .apart ht hv hr
  | omitted hd => exact ⟨[], .inr ⟨rfl, hd⟩, fun r hs hr => hr⟩

theorem valueOr_nil (switch : Switch) (standard : String) :
    valueOr [] switch standard = standard :=
  rfl

theorem valueOr_cons (switch other : Switch) (v : List Char) (gs : List (Switch × List Char))
    (standard : String) : valueOr ((other, v) :: gs) switch standard =
      if switch = other then String.ofList v else valueOr gs switch standard := by
  rw [valueOr, List.lookup_cons]
  by_cases h : switch = other
  · rw [if_pos h, beq_iff_eq.mpr h]
  · rw [if_neg h, beq_eq_false_iff_ne.mpr h]
    rfl

theorem acceptable_of_given
    (hg : gs = [(.endpoint, o.endpoint.toList)] ∨ gs = [] ∧ o.endpoint = Fetch.defaultEndpoint)
    (hh : hs = [(.output, o.output.toList)] ∨ hs = [] ∧ o.output = Fetch.defaultOutput)
    (hn : o.output ≠ "") :
    (Acceptable (gs ++ hs) ∧ o = optionsOf (gs ++ hs)) ∧
      Acceptable (hs ++ gs) ∧ o = optionsOf (hs ++ gs) := by
  obtain ⟨e, p⟩ := o
  obtain rfl | ⟨rfl, rfl⟩ := hg
  · obtain rfl | ⟨rfl, rfl⟩ := hh
    · simp_all [Acceptable, optionsOf, valueOr_cons]
    · simp [Acceptable, optionsOf, valueOr_cons, valueOr_nil]
  · obtain rfl | ⟨rfl, rfl⟩ := hh
    · simp_all [Acceptable, optionsOf, valueOr_cons, valueOr_nil]
    · simp [Acceptable, optionsOf, valueOr_nil]

theorem Options.Given.read (h : o.Given arguments) (he : IsPlain o.endpoint.toList)
    (ho : IsPlain o.output.toList) (hn : o.output ≠ "") :
    CommandLine.read arguments = .ok (.fetch o) := by
  obtain ⟨es, os, hes, hos, harguments⟩ := h
  obtain ⟨gs, hg, hgs⟩ := hes.spells rfl he
  obtain ⟨hs, hh, hhs⟩ := hos.spells rfl ho
  obtain ⟨⟨ha, hgiven⟩, ha', hgiven'⟩ := acceptable_of_given hg hh hn
  rw [read_eq_fetch_iff]
  obtain rfl | rfl := harguments
  · refine ⟨gs ++ hs, ?_, ha, hgiven⟩
    have hr := hgs _ _ (hhs [] [] .nil)
    rwa [List.append_nil, List.append_nil, ← List.map_append] at hr
  · refine ⟨hs ++ gs, ?_, ha', hgiven'⟩
    have hr := hhs _ _ (hgs [] [] .nil)
    rwa [List.append_nil, List.append_nil, ← List.map_append] at hr

theorem Switch.NamedBy.exists_name (h : switch.NamedBy a) :
    ∃ n, a = dashes ++ n ∧ Switch.ofName? (Text.cut (· = '=') n).1 = some switch := by
  obtain rfl | ⟨v, rfl⟩ := h
  · refine ⟨switch.name, rfl, ?_⟩
    rw [Switch.cut_name, Switch.ofName?_name]
  · refine ⟨switch.name ++ '=' :: v, List.append_assoc _ _ _, ?_⟩
    rw [Switch.cut_joined, Switch.ofName?_name]

theorem Switch.NamedBy.eq (h : switch.NamedBy a) (h' : Switch.NamedBy other a) :
    switch = other := by
  obtain ⟨n, rfl, hn⟩ := h.exists_name
  obtain ⟨n', he, hn'⟩ := h'.exists_name
  rw [← List.append_cancel_left he, hn] at hn'
  exact Option.some.inj hn'

theorem Switch.NamedBy.not_isPlain (h : switch.NamedBy a) : ¬ IsPlain a := by
  intro hp
  obtain ⟨n, rfl, -⟩ := h.exists_name
  cases hp rfl

theorem not_namedBy_dashes : ¬ switch.NamedBy dashes := by
  intro h
  obtain ⟨n, he, hn⟩ := h.exists_name
  obtain rfl : n = [] := List.append_cancel_left he.symm
  cases hn

theorem Spells.mem_of_namedBy (h : Spells r gs) (hn : switch.NamedBy a) (ha : a ∈ r) :
    switch ∈ gs.map Prod.fst := by
  induction h with
  | nil => cases ha
  | dashes =>
    rw [List.mem_singleton.mp ha] at hn
    exact absurd hn not_namedBy_dashes
  | @joined r gs other v _ _ ih =>
    obtain rfl | ha := List.mem_cons.mp ha
    · rw [hn.eq (.inr ⟨v, rfl⟩)]
      exact List.mem_cons_self
    · exact List.mem_cons_of_mem _ (ih ha)
  | @apart v r gs other _ hp _ ih =>
    rw [List.mem_cons, List.mem_cons] at ha
    obtain rfl | rfl | ha := ha
    · rw [hn.eq (.inl rfl)]
      exact List.mem_cons_self
    · exact absurd hp hn.not_isPlain
    · exact List.mem_cons_of_mem _ (ih ha)

theorem Spells.pairwise (h : Spells r gs) (hg : (gs.map Prod.fst).Nodup) (switch : Switch) :
    r.Pairwise fun a b => ¬ (switch.NamedBy a ∧ switch.NamedBy b) := by
  have hfirst {r gs a v} {other : Switch} (ha : other.NamedBy a) (hr : Spells r gs)
      (hn : (((other, v) :: gs).map Prod.fst).Nodup) :
      ∀ b ∈ r, ¬ (switch.NamedBy a ∧ switch.NamedBy b) := by
    rintro b hb ⟨hs, hs'⟩
    obtain rfl := hs.eq ha
    exact (List.nodup_cons.mp hn).1 (hr.mem_of_namedBy hs' hb)
  induction h with
  | nil => exact .nil
  | dashes => exact List.pairwise_singleton _ _
  | @joined r gs other v _ hr ih =>
    exact .cons (hfirst (.inr ⟨v, rfl⟩) hr hg) (ih (List.nodup_cons.mp hg).2)
  | @apart v r gs other _ hp hr ih =>
    refine .cons ?_ (.cons ?_ (ih (List.nodup_cons.mp hg).2))
    · intro b hb hs
      obtain rfl | hb := List.mem_cons.mp hb
      · exact hs.2.not_isPlain hp
      · exact hfirst (.inl rfl) hr hg b hb hs
    · exact fun b _ hs => hs.1.not_isPlain hp

/-- A switch that is named twice is not read as one that is given. -/
theorem read_ne_fetch_of_twice {a b : String} (hab : [a, b].Sublist arguments)
    (ha : switch.NamedBy a.toList) (hb : switch.NamedBy b.toList) (o : Options) :
    CommandLine.read arguments ≠ .ok (.fetch o) := by
  intro h
  obtain ⟨gs, hr, hg, -⟩ := (read_eq_fetch_iff arguments o).mp h
  have hp := (hr.pairwise hg.1 switch).sublist (hab.map String.toList)
  exact List.rel_of_pairwise_cons hp List.mem_cons_self ⟨ha, hb⟩

theorem settled?_eq_asked {k : State → Outcome} (h : s.settled? k = .asked c) :
    ∃ t, k t = .asked c := by
  obtain ⟨t, -, ht⟩ := exists_of_settled? h fun _ => Outcome.noConfusion
  exact ⟨t, ht⟩

theorem asksAbout_of_long (h : s.long a = .asked c) : AsksAbout (dashes ++ a) := by
  rw [State.long] at h
  rcases hc : Text.cut (· = '=') a with ⟨name, rest⟩
  simp only [hc] at h
  have ha := Text.append_of_cut hc
  cases hn : Switch.ofName? name with
  | none =>
    simp only [hn] at h
    cases h
  | some switch =>
    obtain rfl := Switch.name_of_ofName? hn
    cases rest with
    | nil =>
      simp only [hn] at h
      rw [← ha, List.append_nil]
      cases switch with
      | help => exact .inl rfl
      | version => exact .inr (.inl rfl)
      | endpoint =>
        obtain ⟨t, ht⟩ := settled?_eq_asked h
        cases ht
      | output =>
        obtain ⟨t, ht⟩ := settled?_eq_asked h
        cases ht
    | cons d v =>
      simp only [hn] at h
      split at h
      · obtain ⟨t, ht⟩ := settled?_eq_asked h
        split at ht
        · cases ht
        · cases ht
      · cases h

theorem asksAbout_of_short (h : s.short d = .asked c) (v : List Char) :
    AsksAbout ('-' :: d :: v) := by
  rw [State.short] at h
  split at h
  · next hd => exact .inr (.inr (.inl ⟨v, hd ▸ rfl⟩))
  · split at h
    · next hd => exact .inr (.inr (.inr ⟨v, hd ▸ rfl⟩))
    · cases h

theorem plain_ne_asked (s : State) (a : List Char) : s.plain a ≠ .asked c := by
  rw [State.plain]
  split
  · split
    · exact Outcome.noConfusion
    · exact Outcome.noConfusion
  · exact Outcome.noConfusion

theorem asksAbout_of_step (h : s.step a = .asked c) : AsksAbout a := by
  unfold State.step at h
  split at h
  · exact absurd h (plain_ne_asked s a)
  · split at h
    · cases h
    · exact asksAbout_of_long h
    · exact asksAbout_of_short h _
    · exact absurd h (plain_ne_asked s _)

/-- Only arguments that ask for it are answered with something else than a fetch. -/
theorem exists_asksAbout (h : readFrom s r = .ok c) (hc : ∀ o, c ≠ .fetch o) :
    ∃ a ∈ r, AsksAbout a := by
  induction r generalizing s with
  | nil =>
    rw [readFrom, State.finish] at h
    split at h
    · exact absurd (Except.ok.inj h).symm (hc _)
    · cases h
  | cons a r ih =>
    rw [readFrom] at h
    split at h
    · obtain ⟨b, hb, hab⟩ := ih h
      exact ⟨b, List.mem_cons_of_mem a hb, hab⟩
    · next hs => exact ⟨a, List.mem_cons_self, asksAbout_of_step hs⟩
    · cases h

end CommandLine

namespace Program
open CommandLine

variable {w : World} {arguments : List String}

/-- What is not read as a fetch touches nothing, and is refused unless it asks about the
program. -/
theorem observe_of_not_fetch (h : ∀ o, CommandLine.read arguments ≠ .ok (.fetch o))
    (setting? : Option String) (isGone : Bool) (time : String) :
    let seen := observe w arguments setting? isGone time
    seen.requests = [] ∧ seen.tree = w.tree ∧
      ((∀ x ∈ arguments, ¬ AsksAbout x.toList) → seen.status = 2 ∧ seen.printed = "") := by
  intro seen
  have hdone {exit : Exit} (hd : perform arguments = .done exit) :
      seen.requests = [] ∧ seen.tree = w.tree := by
    have hs : seen = _ := observe_of_done hd setting? isGone time
    rw [hs]
    exact ⟨rfl, rfl⟩
  have hasks {c : Command} (hc : CommandLine.read arguments = .ok c) :
      ∃ x ∈ arguments, AsksAbout x.toList := by
    obtain ⟨a, ha, hasks⟩ := exists_asksAbout hc fun o ho => h o (ho ▸ hc)
    obtain ⟨x, hx, rfl⟩ := List.mem_map.mp ha
    exact ⟨x, hx, hasks⟩
  cases hr : CommandLine.read arguments with
  | error u =>
    obtain ⟨hs, hp, hq, ht⟩ := observe_of_refused (w := w) hr setting? isGone time
    exact ⟨hq, ht, fun _ => ⟨hs, hp⟩⟩
  | ok c =>
    obtain ⟨x, hx, hxasks⟩ := hasks hr
    obtain ⟨hq, ht⟩ : seen.requests = [] ∧ seen.tree = w.tree := by
      cases c with
      | fetch o => exact absurd hr (h o)
      | help => exact hdone (by rw [perform, hr])
      | version => exact hdone (by rw [perform, hr])
    exact ⟨hq, ht, fun hn => absurd hxasks (hn x hx)⟩

/-- All the ways to give the same options give the same run. A switch that is named twice is
never read as given: nothing is asked for or saved, and unless an argument asks about the
program, the arguments are refused. -/
theorem observe_of_given (w : World) (setting? : Option String) (isGone : Bool)
    (time : String) :
    (∀ (o : Options) arguments arguments', IsPlain o.endpoint.toList → IsPlain o.output.toList →
      o.output ≠ "" → o.Given arguments → o.Given arguments' →
        CommandLine.read arguments = .ok (.fetch o) ∧
        observe w arguments setting? isGone time = observe w arguments' setting? isGone time) ∧
    ∀ (switch : Switch) arguments (a b : String), [a, b].Sublist arguments →
      switch.NamedBy a.toList → switch.NamedBy b.toList →
        let seen := observe w arguments setting? isGone time
        seen.requests = [] ∧ seen.tree = w.tree ∧
          ((∀ x ∈ arguments, ¬ AsksAbout x.toList) → seen.status = 2 ∧ seen.printed = "") := by
  constructor
  · intro o arguments arguments' he ho hn hg hg'
    have hr := hg.read he ho hn
    have hr' := hg'.read he ho hn
    refine ⟨hr, ?_⟩
    rw [observe, observe, perform, perform, hr, hr']
  · intro switch arguments a b hab ha hb
    exact observe_of_not_fetch (read_ne_fetch_of_twice hab ha hb) setting? isGone time

/-- An empty endpoint, a name with what looks like a second value, and one endpoint given twice.
-/
theorem observe_of_given_empty :
    (∀ w, CommandLine.read ["--endpoint=", "--output", "a b=c"] = .ok (.fetch ⟨"", "a b=c"⟩) ∧
      observe w ["--endpoint=", "--output", "a b=c"] none false "" =
        observe w ["--output=a b=c", "--endpoint", ""] none false "") ∧
    ∀ w,
      (observe w ["--endpoint", "a", "--output=b", "--endpoint=a"] none false "").status = 2 :=
        by
  have hplain : IsPlain "a b=c".toList := fun h => absurd h (by decide)
  constructor
  · intro w
    exact (observe_of_given w none false "").1 ⟨"", "a b=c"⟩ _ _ (fun h => nomatch h) hplain
      (by decide) ⟨_, _, .joined, .apart, .inl rfl⟩ ⟨_, _, .apart, .joined, .inr rfl⟩
  · intro w
    have ht : ["--endpoint", "--endpoint=a"].Sublist
        ["--endpoint", "a", "--output=b", "--endpoint=a"] := by decide
    obtain ⟨-, -, hs⟩ := (observe_of_given w none false "").2 .endpoint _ "--endpoint"
      "--endpoint=a" ht (.inl rfl) (.inr ⟨['a'], rfl⟩)
    exact (hs (by decide)).1

end Program

end SchemaSnapshot
