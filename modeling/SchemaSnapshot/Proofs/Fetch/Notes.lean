import SchemaSnapshot.Proofs.Document
import SchemaSnapshot.Proofs.Fetch.Runs
import SchemaSnapshot.Proofs.Transcript

namespace SchemaSnapshot.Fetch

open Interaction

variable {f : Fetcher} {w : World} {d : Document} {e : Error}

theorem note_heedless (f : Fetcher) (pieces : List String) : (f.note pieces).Heedless := by
  intro r
  cases r with
  | ok u => exact ⟨trivial, .refl _⟩
  | error e => exact ⟨trivial, fun w => ⟨rfl, rfl, rfl⟩⟩

theorem fetch_heedless (f : Fetcher) : f.fetch.Heedless := by
  apply (note_heedless f f.fetchingNote).bind
  intro _
  apply (schema_asks f.client [f.span]).heedless.bind
  intro r
  cases r with
  | error e => trivial
  | ok d =>
    intro saved
    cases saved with
    | error e => trivial
    | ok u =>
      apply (note_heedless f f.savedNote).bind
      intro _
      apply (note_heedless f (Fetcher.versionNote d)).bind
      intro _
      trivial

/-- The notes about a schema that has been saved. -/
def resultNotes (f : Fetcher) : Except Error Document → List String
  | .error _ => []
  | .ok d => [String.join f.savedNote, String.join (Fetcher.versionNote d)]

theorem texts_fetch (f : Fetcher) (w : World) :
    Message.texts (f.fetch.run w).messages =
      String.join f.fetchingNote :: resultNotes f (f.fetch.run w).result := by
  obtain ⟨-, -, ht⟩ := (schema_asks f.client [f.span]).run w
  simp only [Fetcher.fetch, bind_eq, pure_eq, log, Interaction.bind, run_bind, run_note]
  cases ((f.client.schema [f.span]).run w).result with
  | error e =>
    simp only [run, List.singleton_append, List.append_nil, Message.texts_text, ht, resultNotes]
  | ok d =>
    simp only [run]
    cases (((f.client.schema [f.span]).run w).world.tree.save f.output.toList d).2 with
    | error e =>
      simp only [run, List.singleton_append, List.append_nil, Message.texts_text,
        ht, resultNotes]
    | ok u =>
      simp only [run, run_bind, run_note, List.singleton_append, List.append_nil,
        Message.texts_text, Message.texts_append, Message.texts_record, Message.texts_nil, ht,
        resultNotes, List.nil_append]

theorem fetchTo_run (f : Fetcher) (s : Sink) (w : World) :
    ((f.fetchTo s).run w).result.1 = (f.fetch.run w).result ∧
      ((f.fetchTo s).run w).world = (f.fetch.run w).world ∧
      ((f.fetchTo s).run w).requests = (f.fetch.run w).requests :=
  (fetch_heedless f).run_watchedBy _ s w

theorem fetchTo_unlimited (f : Fetcher) (w : World) :
    ((f.fetchTo .unlimited).run w).result.2.taken =
      octets
        (String.join (String.join f.fetchingNote :: resultNotes f (f.fetch.run w).result)) := by
  rw [Fetcher.fetchTo, Sink.unlimited, run_watchedBy_of_unlimited]
  dsimp only
  rw [Sink.writeTexts_of_unlimited, Message.join_shown_hidden, texts_fetch, List.nil_append]

theorem join_fetchingNote (f : Fetcher) :
    String.join f.fetchingNote =
      "Fetching schema from " ++ f.client.endpoint ++ "/insights/schema...\n" := by
  simp only [Fetcher.fetchingNote, schemaPath, String.join_cons, String.append_assoc]
  rfl

theorem join_resultNotes_ok (f : Fetcher) (d : Document) :
    String.join (resultNotes f (.ok d)) =
      "✅ Schema saved to " ++ f.output ++ "\nSchema version: " ++ d.versionLabel ++ "\n" := by
  simp only [resultNotes, Fetcher.savedNote, Fetcher.versionNote, String.join_cons,
    String.append_assoc]
  rfl

theorem octets_resultNotes_ne_nil (f : Fetcher) (d : Document) :
    octets (String.join (resultNotes f (.ok d))) ≠ [] := by
  rw [join_resultNotes_ok, octets_append, octets_append, octets_append, octets_append]
  intro h
  simp only [List.append_eq_nil_iff] at h
  exact absurd h.1.1.1.1 (by decide)

/-- A fetch whose writer takes so many octets at most does the same as one with an unlimited
writer, and its writer gets the first octets of what the other gets: the line of the start alone
if the fetch fails, and the two lines about the saved file after it exactly if it succeeds. -/
theorem fetchTo_limited (f : Fetcher) (w : World) (limit : Nat) (whenFull : WhenFull) :
    let free := (f.fetchTo .unlimited).run w
    let limited := (f.fetchTo (.empty (some limit) whenFull)).run w
    let start := "Fetching schema from " ++ f.client.endpoint ++ "/insights/schema...\n"
    limited.result.1 = free.result.1 ∧ limited.requests = free.requests ∧
      limited.world = free.world ∧
      limited.result.2.taken = free.result.2.taken.take limit ∧
      ((∃ e, free.result.1 = .error e) ↔ free.result.2.taken = octets start) ∧
      ∀ d, free.result.1 = .ok d →
        free.result.2.taken =
          octets (start ++ "✅ Schema saved to " ++ f.output ++ "\nSchema version: " ++
            d.versionLabel ++ "\n") ∧
        free.world.tree.read f.output.toList = .ok d.written := by
  dsimp only
  obtain ⟨hr, hw, hq⟩ := fetchTo_run f .unlimited w
  obtain ⟨hr', hw', hq'⟩ := fetchTo_run f (.empty (some limit) whenFull) w
  have ht : ((f.fetchTo .unlimited).run w).result.2.taken =
      octets ("Fetching schema from " ++ f.client.endpoint ++ "/insights/schema...\n") ++
        octets (String.join (resultNotes f (f.fetch.run w).result)) := by
    rw [fetchTo_unlimited, String.join_cons, octets_append, join_fetchingNote]
  refine ⟨hr'.trans hr.symm, hq'.trans hq.symm, hw'.trans hw.symm, ?_, ?_, ?_⟩
  · simp only [Fetcher.fetchTo, Sink.empty, Sink.unlimited]
    exact taken_watchedBy_of_limited f.fetch _ _ _ [] (Nat.zero_le limit) w
  · rw [ht, List.append_right_eq_self, hr]
    constructor
    · rintro ⟨e, he⟩
      rw [he]
      rfl
    · intro hn
      cases h : (f.fetch.run w).result with
      | error e => exact ⟨e, rfl⟩
      | ok d =>
        rw [h] at hn
        exact absurd hn (octets_resultNotes_ne_nil f d)
  · intro d hd
    have hd' := hr.symm.trans hd
    constructor
    · rw [ht, hd', join_resultNotes_ok, ← octets_append]
      simp only [String.append_assoc]
    · rw [hw]
      exact fetch_read_of_ok hd'

end SchemaSnapshot.Fetch
