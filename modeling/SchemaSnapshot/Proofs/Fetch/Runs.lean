import SchemaSnapshot.Fetch.Fetcher
import SchemaSnapshot.Proofs.Document
import SchemaSnapshot.Proofs.File.Save
import SchemaSnapshot.Proofs.Interaction

namespace SchemaSnapshot.Fetch

open Interaction

variable {f : Fetcher} {w : World} {d : Document} {e : Error}

theorem follow_asks (start : Url) (credentials? : Option (List UInt8)) (left : Nat)
    (request : Http.Request) :
    (Http.follow start credentials? left request).Asks fun _ => True := by
  induction left generalizing credentials? request with
  | zero =>
    rw [Http.follow]
    intro delivery
    dsimp only
    split <;> trivial
  | succ left ih =>
    rw [Http.follow]
    intro delivery
    dsimp only
    split
    · trivial
    · trivial
    · split
      · exact ih _ _
      · trivial

theorem get_asks (u : Url) : (Http.get u).Asks fun _ => True := by
  simp only [Http.get]
  split
  · trivial
  · split
    · trivial
    · exact follow_asks _ _ _ _

def Error.IsWrite : Error → Prop
  | .write .. => True
  | _ => False

/-- Asking for the schema saves nothing, so nothing can go wrong with that. -/
theorem schema_asks (c : Client) (outer : List Log.Span) :
    (c.schema outer).Asks fun r => ∀ e, r = .error e → ¬ e.IsWrite := by
  simp only [Client.schema, Client.schemaUrl]
  cases Url.parse c.schemaText.toList with
  | error e => simp [Asks, Error.IsWrite]
  | ok u =>
    apply (get_asks _).bind
    intro r _
    rcases r with failure | ⟨final, response⟩
    · simp [Asks, Error.IsWrite]
    · dsimp only
      cases response.body with
      | error e => simp [Asks, Error.IsWrite]
      | ok body =>
        simp only [Client.judge]
        split
        · cases Document.read body with
          | error e => simp [Asks, Error.IsWrite, Interaction.bind, log]
          | ok d => simp [Asks, Interaction.bind, log]
        · simp [Asks, Error.IsWrite]

theorem run_note (f : Fetcher) (pieces : List String) (w : World) :
    (f.note pieces).run w = ⟨(), w, [], [.text (String.join pieces)]⟩ := rfl

/-- All that a fetch can do: it fails before it touches the tree, it fails to save the document
that it got, or it saves it. -/
theorem fetch_cases (f : Fetcher) (w : World) :
    (∃ e, (f.fetch.run w).result = .error e ∧ ¬ e.IsWrite ∧
      (f.fetch.run w).world.tree = w.tree) ∨
    (∃ d e, (f.fetch.run w).result = .error (.write f.output e) ∧
      w.tree.save f.output.toList d = ((f.fetch.run w).world.tree, .error e)) ∨
    ∃ d, (f.fetch.run w).result = .ok d ∧
      w.tree.save f.output.toList d = ((f.fetch.run w).world.tree, .ok ()) := by
  obtain ⟨hr, ht, -⟩ := (schema_asks f.client [f.span]).run w
  simp only [Fetcher.fetch, bind_eq, pure_eq, log, Interaction.bind, run_bind, run_note]
  cases hs : ((f.client.schema [f.span]).run w).result with
  | error e => exact .inl ⟨e, rfl, hr e hs, ht⟩
  | ok d =>
    refine .inr ?_
    simp only [run, ht]
    rcases hd : w.tree.save f.output.toList d with ⟨u, e | _⟩
    · exact .inl ⟨d, e, rfl, hd⟩
    · exact .inr ⟨d, rfl, hd⟩

theorem fetch_onlySaves (f : Fetcher) (w : World) :
    w.tree.OnlySaves (f.fetch.run w).world.tree f.output.toList := by
  rcases fetch_cases f w with ⟨e, _, _, ht⟩ | ⟨d, e, _, hs⟩ | ⟨d, _, hs⟩
  · rw [ht]
    intro q
    exact .inl rfl
  · exact File.Tree.onlySaves_of_save hs
  · exact File.Tree.onlySaves_of_save hs

theorem fetch_tree_of_error (h : (f.fetch.run w).result = .error e) (he : ¬ e.IsWrite) :
    (f.fetch.run w).world.tree = w.tree := by
  rcases fetch_cases f w with ⟨_, _, _, ht⟩ | ⟨d, e', hr, _⟩ | ⟨d, hr, _⟩
  · exact ht
  · rw [h] at hr
    cases hr
    exact (he trivial).elim
  · rw [h] at hr
    cases hr

theorem fetch_sameFiles_of_error (h : (f.fetch.run w).result = .error e) :
    w.tree.SameFiles (f.fetch.run w).world.tree := by
  rcases fetch_cases f w with ⟨_, _, _, ht⟩ | ⟨d, e', _, hs⟩ | ⟨d, hr, _⟩
  · rw [ht]
    intro q c
    exact .rfl
  · exact File.Tree.sameFiles_of_save hs
  · rw [h] at hr
    cases hr

theorem fetch_read_of_ok (h : (f.fetch.run w).result = .ok d) :
    (f.fetch.run w).world.tree.read f.output.toList = .ok d.written := by
  rcases fetch_cases f w with ⟨_, hr, _⟩ | ⟨_, _, hr, _⟩ | ⟨d', hr, hs⟩
  · rw [h] at hr
    cases hr
  · rw [h] at hr
    cases hr
  · rw [h] at hr
    cases hr
    rw [Document.written_eq]
    exact File.Tree.read_of_save hs

/-- The output can be read, so nothing is in the way of saving there. -/
def OutputReadable (f : Fetcher) (w : World) : Prop :=
  ∃ c, w.tree.read f.output.toList = .ok c

theorem OutputReadable.not_isWrite (h : OutputReadable f w)
    (hr : (f.fetch.run w).result = .error e) : ¬ e.IsWrite := by
  obtain ⟨c, hc⟩ := h
  rcases fetch_cases f w with ⟨e', hr', he, _⟩ | ⟨d, e', _, hs⟩ | ⟨d, hr', _⟩
  · rw [hr] at hr'
    cases hr'
    exact he
  · have ho := File.Tree.save_of_read hc d
    rw [hs] at ho
    cases ho
  · rw [hr] at hr'
    cases hr'

theorem OutputReadable.fetch (h : OutputReadable f w) :
    OutputReadable f (f.fetch.run w).world := by
  cases hr : (f.fetch.run w).result with
  | ok d => exact ⟨_, fetch_read_of_ok hr⟩
  | error e =>
    rw [OutputReadable, fetch_tree_of_error hr (h.not_isWrite hr)]
    exact h

/-- The document of the last run that gave one. -/
def lastDocument? (runs : List (Run (Except Error Document))) : Option Document :=
  (runs.filterMap fun r => r.result.toOption).getLast?

/-- What the files are after some runs: the output holds the last document, or nothing changed.
-/
def Settled (f : Fetcher) (w : World) (runs : List (Run (Except Error Document))) : Prop :=
  match lastDocument? runs with
  | some d => (worldAfter w runs).tree.read f.output.toList = .ok d.written
  | none => w.tree.SameFiles (worldAfter w runs).tree

theorem settled_runTimes (f : Fetcher) (w : World) (n : Nat) :
    Settled f w (f.fetch.runTimes w n) := by
  induction n with
  | zero =>
    intro q c
    exact .rfl
  | succ n ih =>
    rw [runTimes_succ]
    simp only [Settled, worldAfter_concat] at ih ⊢
    generalize worldAfter w (f.fetch.runTimes w n) = v at ih ⊢
    cases hr : (f.fetch.run v).result with
    | ok d =>
      have hl : lastDocument? (f.fetch.runTimes w n ++ [f.fetch.run v]) = some d := by
        simp [lastDocument?, hr, Except.toOption]
      simp only [hl]
      exact fetch_read_of_ok hr
    | error e =>
      have hl : lastDocument? (f.fetch.runTimes w n ++ [f.fetch.run v]) =
          lastDocument? (f.fetch.runTimes w n) := by
        simp [lastDocument?, hr, Except.toOption]
      rw [hl]
      cases hd : lastDocument? (f.fetch.runTimes w n) with
      | none =>
        simp only [hd] at ih ⊢
        intro q c
        exact (fetch_sameFiles_of_error hr q c).trans (ih q c)
      | some d =>
        simp only [hd] at ih ⊢
        rw [fetch_tree_of_error hr (OutputReadable.not_isWrite ⟨_, ih⟩ hr)]
        exact ih

theorem OutputReadable.of_le {k m : Nat}
    (h : OutputReadable f (worldAfter w (f.fetch.runTimes w k))) (hk : k ≤ m) :
    OutputReadable f (worldAfter w (f.fetch.runTimes w m)) := by
  induction hk with
  | refl => exact h
  | step _ ih =>
    rw [runTimes_succ, worldAfter_concat]
    exact ih.fetch

/-- Any number of fetches to one output: a call that gets no document leaves the tree as it was,
the output holds the document of the last call that returned one, nothing else changes but
missing folders of the output's path, and after a success no call fails to write. -/
theorem runTimes_fetch_files (f : Fetcher) (w : World) (n : Nat) :
    let runs := f.fetch.runTimes w n
    let path := f.output.toList
    let treeAfter (k : Nat) := (worldAfter w (runs.take k)).tree
    runs.length = n ∧
    (∀ k r e, runs[k]? = some r → r.result = .error e →
      (treeAfter k).SameFiles (treeAfter (k + 1)) ∧
      (¬ e.IsWrite → treeAfter (k + 1) = treeAfter k)) ∧
    (match lastDocument? runs with
      | some d => (treeAfter n).read path = .ok d.written
      | none => w.tree.SameFiles (treeAfter n)) ∧
    (∀ k < n, (treeAfter k).OnlySaves (treeAfter (k + 1)) path) ∧
    ∀ (i j : Nat) (r s : Run (Except Error Document)) d e, i < j →
      runs[i]? = some r → runs[j]? = some s → r.result = .ok d → s.result = .error e →
        ¬ e.IsWrite := by
  intro runs path treeAfter
  have ht {k : Nat} (h : k ≤ n) : treeAfter k = (worldAfter w (f.fetch.runTimes w k)).tree := by
    simp only [treeAfter, runs, take_runTimes f.fetch w h]
  have hs {k : Nat} (h : k < n) :
      treeAfter (k + 1) = (f.fetch.run (worldAfter w (f.fetch.runTimes w k))).world.tree := by
    rw [ht h, runTimes_succ, worldAfter_concat]
  have hr {k : Nat} {r : Run (Except Error Document)} (h : runs[k]? = some r) :
      k < n ∧ f.fetch.run (worldAfter w (f.fetch.runTimes w k)) = r := by
    simpa [runs, getElem?_runTimes] using h
  refine ⟨length_runTimes _ _ _, ?_, ?_, ?_, ?_⟩
  · intro k r e hk he
    obtain ⟨hn, rfl⟩ := hr hk
    rw [hs hn, ht (Nat.le_of_lt hn)]
    exact ⟨fetch_sameFiles_of_error he, fetch_tree_of_error he⟩
  · rw [ht (Nat.le_refl n)]
    exact settled_runTimes f w n
  · intro k hk
    rw [hs hk, ht (Nat.le_of_lt hk)]
    exact fetch_onlySaves f _
  · intro i j r s d e hij hi hj hd he
    obtain ⟨_, rfl⟩ := hr hi
    obtain ⟨_, rfl⟩ := hr hj
    have ho : OutputReadable f (worldAfter w (f.fetch.runTimes w (i + 1))) := by
      rw [runTimes_succ, worldAfter_concat]
      exact ⟨_, fetch_read_of_ok hd⟩
    exact (ho.of_le hij).not_isWrite he

end SchemaSnapshot.Fetch
