import SchemaSnapshot.Observation
import SchemaSnapshot.Proofs.CommandLine
import SchemaSnapshot.Proofs.Fetch.Notes
import SchemaSnapshot.Proofs.Log.Filter

namespace SchemaSnapshot.Program

open Interaction

variable {w : World} {arguments : List String} {o : CommandLine.Options} {d : Document}
  {e : Fetch.Error}

theorem fetch_heedless (o : CommandLine.Options) : (fetch o).Heedless := by
  apply (Fetch.fetch_heedless o.fetcher).bind
  intro r
  cases r with
  | ok d => trivial
  | error e =>
    intro reported
    cases reported with
    | ok u => exact ⟨trivial, .refl _⟩
    | error unreported =>
      -- the other way out ends with the same status
      exact ⟨fun _ => ⟨trivial, .refl _⟩, fun w => ⟨rfl, rfl, rfl⟩⟩

theorem perform_heedless (arguments : List String) : (perform arguments).Heedless := by
  rw [perform]
  cases CommandLine.read arguments with
  | error e => exact fun _ => ⟨trivial, .refl _⟩
  | ok c =>
    cases c with
    | fetch o => exact fetch_heedless o
    | help => trivial
    | version => trivial

/-- What a watcher gets who hears these messages, when records have these lines. -/
def heard (line : Log.Record → String) (ms : List Message) : List UInt8 :=
  octets (String.join (ms.map (Message.shown line)))

theorem observe_eq (w : World) (arguments : List String) (setting? : Option String)
    (isGone : Bool) (time : String) :
    let run := (perform arguments).run w
    let seen := observe w arguments setting? isGone time
    seen.status = run.result.status ∧ seen.printed = run.result.printed ∧
      seen.requests = run.requests ∧ seen.tree = run.world.tree := by
  intro run seen
  obtain ⟨hr, hw, hq⟩ := (perform_heedless arguments).run_watchedBy
    (line (.ofSetting setting?) time) (watcher isGone) w
  exact ⟨congrArg Exit.status hr, congrArg Exit.printed hr, hq, congrArg World.tree hw⟩

theorem watched_observe (w : World) (arguments : List String) (setting? : Option String)
    (time : String) :
    (observe w arguments setting? false time).watched =
      heard (line (.ofSetting setting?) time) ((perform arguments).run w).messages := by
  have hs : watcher false = ⟨none, .refuses, []⟩ := rfl
  simp only [observe, hs, run_watchedBy_of_unlimited, Sink.writeTexts_of_unlimited,
    List.nil_append, heard]

theorem watched_observe_off (w : World) (arguments : List String) (time : String) :
    (observe w arguments (some "off") false time).watched =
      octets (String.join (Message.texts ((perform arguments).run w).messages)) := by
  have hf : (Log.Filter.ofSetting (some "off")).Silent := by decide
  have hl : line (.ofSetting (some "off")) time = Log.Record.hidden := by
    funext r
    rw [line, hf.shownSpans?, Log.Record.hidden]
  rw [watched_observe, hl, heard, Message.join_shown_hidden]

/-- Neither the log setting nor the watcher has a say in what the program does. A watcher who is
there hears the same messages under every setting: the setting only decides the lines that their
records have, and with records turned off the texts alone are left. -/
theorem observe_agrees (w : World) (arguments : List String)
    (setting? setting'? : Option String)
    (isGone isGone' : Bool) (time time' : String) :
    let seen := observe w arguments setting? isGone time
    let seen' := observe w arguments setting'? isGone' time'
    let told := ((perform arguments).run w).messages
    seen.status = seen'.status ∧ seen.printed = seen'.printed ∧
      seen.requests = seen'.requests ∧ seen.tree = seen'.tree ∧
      (observe w arguments setting? false time).watched =
        heard (line (.ofSetting setting?) time) told ∧
      (observe w arguments setting'? false time').watched =
        heard (line (.ofSetting setting'?) time') told ∧
      (observe w arguments (some "off") false time).watched =
        octets (String.join (Message.texts told)) := by
  intro seen seen' told
  obtain ⟨hs, hp, hq, ht⟩ := observe_eq w arguments setting? isGone time
  obtain ⟨hs', hp', hq', ht'⟩ := observe_eq w arguments setting'? isGone' time'
  exact ⟨hs.trans hs'.symm, hp.trans hp'.symm, hq.trans hq'.symm, ht.trans ht'.symm,
    watched_observe w arguments setting? time, watched_observe w arguments setting'? time',
    watched_observe_off w arguments time⟩

theorem run_fetch_of_ok (h : (o.fetcher.fetch.run w).result = .ok d) :
    (fetch o).run w =
      let fetched := o.fetcher.fetch.run w
      ⟨⟨0, ""⟩, fetched.world, fetched.requests,
        .record (argumentsRecord o) :: fetched.messages⟩ := by
  simp only [fetch, bind_eq, pure_eq, log, Interaction.bind, run, run_bind, h, List.append_nil]

theorem run_fetch_of_error (h : (o.fetcher.fetch.run w).result = .error e) :
    (fetch o).run w =
      let fetched := o.fetcher.fetch.run w
      ⟨⟨1, ""⟩, fetched.world, fetched.requests,
        .record (argumentsRecord o) :: (fetched.messages ++
          [.record (failureRecord e), .text e.report])⟩ := by
  simp only [fetch, bind_eq, pure_eq, log, say, Interaction.bind, run, run_bind, h,
    List.append_nil]
  rfl

theorem texts_of_error (h : (o.fetcher.fetch.run w).result = .error e) :
    String.join (Message.texts ((fetch o).run w).messages) =
      "Fetching schema from " ++ o.endpoint ++ "/insights/schema...\n" ++ e.report := by
  have ht := Fetch.texts_fetch o.fetcher w
  rw [h] at ht
  rw [run_fetch_of_error h]
  simp only [Message.texts_record, Message.texts_append, ht, Fetch.resultNotes,
    Message.texts_text, Message.texts_nil, List.singleton_append, String.join_cons,
    String.join_nil, String.append_empty, Fetch.join_fetchingNote]
  rfl

theorem observe_of_done {exit : Exit} (h : perform arguments = .done exit)
    (setting? : Option String) (isGone : Bool) (time : String) :
    observe w arguments setting? isGone time =
      ⟨exit.status, exit.printed, [], [], w.tree⟩ := by
  rw [observe, h]
  cases isGone <;> rfl

theorem observe_of_refused {u : CommandLine.UsageError}
    (h : CommandLine.read arguments = .error u) (setting? : Option String) (isGone : Bool)
    (time : String) :
    let seen := observe w arguments setting? isGone time
    seen.status = 2 ∧ seen.printed = "" ∧ seen.requests = [] ∧ seen.tree = w.tree := by
  have hp : perform arguments =
      .tell [Terminal.plain u.text] fun _ => .done ⟨usageStatus, ""⟩ := by
    rw [perform, h]
    rfl
  obtain ⟨hs, ho, hq, ht⟩ := observe_eq w arguments setting? isGone time
  rw [hp] at hs ho hq ht
  exact ⟨hs, ho, hq, ht⟩

theorem observe_of_fetched (h : CommandLine.read arguments = .ok (.fetch o))
    (setting? : Option String) (isGone : Bool) (time : String) :
    let seen := observe w arguments setting? isGone time
    let fetched := o.fetcher.fetch.run w
    seen.printed = "" ∧ seen.requests = fetched.requests ∧ seen.tree = fetched.world.tree ∧
      ((∃ d, fetched.result = .ok d ∧ seen.status = 0) ∨
        ∃ e, fetched.result = .error e ∧ seen.status = 1) := by
  have hf : perform arguments = fetch o := by rw [perform, h]
  obtain ⟨hs, hp, hq, ht⟩ := observe_eq w arguments setting? isGone time
  rw [hf] at hs hp hq ht
  dsimp only
  cases hr : (o.fetcher.fetch.run w).result with
  | ok d =>
    simp only [run_fetch_of_ok hr] at hs hp hq ht
    exact ⟨hp, hq, ht, .inl ⟨d, rfl, hs⟩⟩
  | error e =>
    simp only [run_fetch_of_error hr] at hs hp hq ht
    exact ⟨hp, hq, ht, .inr ⟨e, rfl, hs⟩⟩

/-- How a run ends. Arguments that are refused, and those that ask for help or the version,
reach neither the service nor the tree; otherwise the status tells whether the fetch succeeded,
with its file written, or failed, with its report after the line about the start. -/
theorem observe_outcome (w : World) (arguments : List String) (setting? : Option String)
    (isGone : Bool) (time : String) :
    let seen := observe w arguments setting? isGone time
    let told := ((perform arguments).run w).messages
    seen.status ∈ [0, 1, 2] ∧
    (seen.status = 2 ↔ ∃ u, CommandLine.read arguments = .error u) ∧
    (∀ o, CommandLine.read arguments = .ok (.fetch o) ↔
      ∃ gs, CommandLine.Spells (arguments.map String.toList) gs ∧ CommandLine.Acceptable gs ∧
        o = CommandLine.optionsOf gs) ∧
    (observe w arguments setting? false time).watched =
      heard (line (.ofSetting setting?) time) told ∧
    match CommandLine.read arguments with
    | .error _ => seen.printed = "" ∧ seen.requests = [] ∧ seen.tree = w.tree
    | .ok .help => seen = ⟨0, CommandLine.helpText, [], [], w.tree⟩
    | .ok .version => seen = ⟨0, CommandLine.versionText, [], [], w.tree⟩
    | .ok (.fetch o) =>
      let fetched := o.fetcher.fetch.run w
      seen.printed = "" ∧ seen.requests = fetched.requests ∧ seen.tree = fetched.world.tree ∧
      (seen.status = 0 ↔ ∃ d, fetched.result = .ok d) ∧
      (seen.status = 1 ↔ ∃ e, fetched.result = .error e) ∧
      match fetched.result with
      | .ok d => seen.tree.read o.output.toList = .ok d.written
      | .error e => String.join (Message.texts told) =
          "Fetching schema from " ++ o.endpoint ++ "/insights/schema...\n" ++ e.report := by
  intro seen told
  have hw := watched_observe w arguments setting? time
  have hg := CommandLine.read_eq_fetch_iff arguments
  cases hr : CommandLine.read arguments with
  | error u =>
    obtain ⟨hs, hp, hq, ht⟩ := observe_of_refused (w := w) hr setting? isGone time
    exact ⟨by simp [seen, hs], by simp [seen, hs], hr ▸ hg, hw, hp, hq, ht⟩
  | ok c =>
    cases c with
    | help =>
      have hd : perform arguments = .done ⟨0, CommandLine.helpText⟩ := by rw [perform, hr]
      have hs : seen = ⟨0, CommandLine.helpText, [], [], w.tree⟩ :=
        observe_of_done hd setting? isGone time
      exact ⟨by simp [hs], by simp [hs], hr ▸ hg, hw, hs⟩
    | version =>
      have hd : perform arguments = .done ⟨0, CommandLine.versionText⟩ := by rw [perform, hr]
      have hs : seen = ⟨0, CommandLine.versionText, [], [], w.tree⟩ :=
        observe_of_done hd setting? isGone time
      exact ⟨by simp [hs], by simp [hs], hr ▸ hg, hw, hs⟩
    | fetch o =>
      have hf : perform arguments = fetch o := by rw [perform, hr]
      obtain ⟨hp, hq, ht, ⟨d, hd, hs⟩ | ⟨e, he, hs⟩⟩ :=
        observe_of_fetched (w := w) hr setting? isGone time
      · have ho : seen.tree.read o.output.toList = .ok d.written := by
          rw [ht]
          exact Fetch.fetch_read_of_ok hd
        refine ⟨by simp [seen, hs], by simp [seen, hs], hr ▸ hg, hw, hp, hq, ht, ?_⟩
        simp [seen, hs, hd, ho]
      · have hm := texts_of_error he
        refine ⟨by simp [seen, hs], by simp [seen, hs], hr ▸ hg, hw, hp, hq, ht, ?_⟩
        simp [seen, hs, he, told, hf, hm]

end SchemaSnapshot.Program
