import SchemaSnapshot.Proofs.Interaction
import SchemaSnapshot.Proofs.Sink
import SchemaSnapshot.Proofs.Text.Utf8
import SchemaSnapshot.Transcript

namespace SchemaSnapshot

theorem octets_append (s t : String) : octets (s ++ t) = octets s ++ octets t := by
  simp only [octets, String.toList_append, Utf8.encode_append]

theorem octets_join (ts : List String) : octets (String.join ts) = (ts.map octets).flatten := by
  induction ts with
  | nil => rfl
  | cons t ts ih => rw [String.join_cons, octets_append, ih, List.map_cons, List.flatten_cons]

@[simp] theorem Message.texts_nil : texts [] = [] := rfl

@[simp] theorem Message.texts_text (s : String) (ms : List Message) :
    texts (.text s :: ms) = s :: texts ms := rfl

@[simp] theorem Message.texts_record (r : Log.Record) (ms : List Message) :
    texts (.record r :: ms) = texts ms := rfl

@[simp] theorem Message.texts_append (ms ns : List Message) :
    texts (ms ++ ns) = texts ms ++ texts ns :=
  List.filterMap_append

theorem Message.join_shown_hidden (ms : List Message) :
    String.join (ms.map (shown Log.Record.hidden)) = String.join (texts ms) := by
  induction ms with
  | nil => rfl
  | cons x ms ih =>
    cases x with
    | text s => rw [List.map_cons, String.join_cons, ih, texts_text, String.join_cons, shown]
    | record r =>
      rw [List.map_cons, String.join_cons, ih, texts_record, shown, Log.Record.hidden,
        String.empty_append]

theorem Sink.writeTexts_of_unlimited (m : WhenFull) (taken : List UInt8) (ts : List String) :
    Sink.writeTexts ⟨none, m, taken⟩ ts = ⟨none, m, taken ++ octets (String.join ts)⟩ := by
  induction ts generalizing taken with
  | nil =>
    have hn : octets (String.join []) = [] := rfl
    rw [hn, List.append_nil]
    rfl
  | cons t ts ih =>
    have ht : Sink.writeText ⟨none, m, taken⟩ t = ⟨none, m, taken ++ octets t⟩ := rfl
    have hc : Sink.writeTexts ⟨none, m, taken⟩ (t :: ts) =
        (Sink.writeText ⟨none, m, taken⟩ t).writeTexts ts := rfl
    rw [hc, ht, ih, String.join_cons, octets_append, List.append_assoc]

namespace Interaction

variable {α β : Type} {P : α → Prop} {i j : Interaction α} {f : α → Interaction β} {l : Nat}

/-- The same is done in every world, whatever is told of it. -/
def Agrees (i j : Interaction α) : Prop :=
  ∀ w, (i.run w).result = (j.run w).result ∧ (i.run w).world = (j.run w).world ∧
    (i.run w).requests = (j.run w).requests

theorem Agrees.refl (i : Interaction α) : i.Agrees i :=
  fun _ => ⟨rfl, rfl, rfl⟩

theorem Agrees.bind (h : i.Agrees j) (f : α → Interaction β) :
    (i.bind f).Agrees (j.bind f) := by
  intro w
  obtain ⟨hr, hw, hq⟩ := h w
  simp only [run_bind, hr, hw, hq, and_self]

/-- Nothing that is done hangs on whether a text could be written. -/
def Heedless : Interaction α → Prop
  | .done _ => True
  | .send _ next => ∀ d, (next d).Heedless
  | .save _ _ next => ∀ r, (next r).Heedless
  | .tell _ next => ∀ r, (next r).Heedless ∧ (next r).Agrees (next (.ok ()))
  | .record _ next => next.Heedless

theorem Heedless.bind (h : i.Heedless) (hf : ∀ a, (f a).Heedless) : (i.bind f).Heedless := by
  induction i with
  | done a => exact hf a
  | send r next ih =>
    intro d
    exact ih d (h d)
  | save p d next ih =>
    intro r
    exact ih r (h r)
  | tell ps next ih =>
    intro r
    exact ⟨ih r (h r).1, (h r).2.bind f⟩
  | record r next ih => exact ih h

theorem Asks.heedless (h : i.Asks P) : i.Heedless := by
  induction i with
  | done a => trivial
  | send r next ih =>
    intro d
    exact ih d (h d)
  | save p d next ih => exact h.elim
  | tell ps next ih => exact h.elim
  | record r next ih => exact ih h

/-- Before any watcher a heedless interaction does what it does when everyone listens. -/
theorem Heedless.run_watchedBy (h : i.Heedless) (line : Log.Record → String) (s : Sink)
    (w : World) :
    ((i.watchedBy line s).run w).result.1 = (i.run w).result ∧
      ((i.watchedBy line s).run w).world = (i.run w).world ∧
      ((i.watchedBy line s).run w).requests = (i.run w).requests := by
  induction i generalizing s w with
  | done a => exact ⟨rfl, rfl, rfl⟩
  | send r next ih =>
    obtain ⟨hr, hw, hq⟩ := ih _ (h (w.service.deliver r).1) s
      { w with service := (w.service.deliver r).2 }
    exact ⟨hr, hw, congrArg _ hq⟩
  | save p d next ih =>
    simp only [watchedBy, run]
    exact ih _ (h (w.tree.save p.toList d).2) s _
  | tell ps next ih =>
    rw [watchedBy]
    rcases s.writeAll (ps.map octets) with ⟨t, r⟩
    obtain ⟨hr, hw, hq⟩ := ih r (h r).1 t w
    obtain ⟨hr', hw', hq'⟩ := (h r).2 w
    exact ⟨hr.trans hr', hw.trans hw', hq.trans hq'⟩
  | record r next ih => exact ih h _ w

/-- A watcher without a limit gets all messages, records as their lines. -/
theorem run_watchedBy_of_unlimited (i : Interaction α) (line : Log.Record → String)
    (m : WhenFull) (taken : List UInt8) (w : World) :
    (i.watchedBy line ⟨none, m, taken⟩).run w =
      ⟨((i.run w).result,
          Sink.writeTexts ⟨none, m, taken⟩ ((i.run w).messages.map (Message.shown line))),
        (i.run w).world, (i.run w).requests, []⟩ := by
  induction i generalizing taken w with
  | done a => rfl
  | send r next ih => simp only [watchedBy, run, ih]
  | save p d next ih => simp only [watchedBy, run, ih]
  | tell ps next ih =>
    have ht : Sink.writeText ⟨none, m, taken⟩ (String.join ps) =
        ⟨none, m, taken ++ (ps.map octets).flatten⟩ := by
      rw [← octets_join]
      rfl
    simp only [watchedBy, Sink.writeAll_of_unlimited, ih, run, List.map_cons, Message.shown,
      Sink.writeTexts, List.foldl_cons, ht]
  | record r next ih =>
    have ht : Sink.writeText ⟨none, m, taken⟩ (line r) =
        ⟨none, m, taken ++ octets (line r)⟩ := rfl
    simp only [watchedBy, ht, ih, run, List.map_cons, Message.shown, Sink.writeTexts,
      List.foldl_cons]

theorem grows_watchedBy (i : Interaction α) (line : Log.Record → String)
    (s : Sink) (w : World) :
    s.Grows ((i.watchedBy line s).run w).result.2 := by
  induction i generalizing s w with
  | done a => exact .refl s
  | send r next ih => exact ih _ s _
  | save p d next ih =>
    simp only [watchedBy, run]
    exact ih _ s _
  | tell ps next ih =>
    have hg := s.grows_writeAll (ps.map octets)
    rw [watchedBy]
    rcases hs : s.writeAll (ps.map octets) with ⟨t, r⟩
    rw [hs] at hg
    exact hg.trans (ih r t w)
  | record r next ih => exact (s.grows_write (octets (line r))).trans (ih _ w)

/-- Nothing more of whatever follows gets through to a full writer, and what an unlimited one
takes from there on comes after. -/
theorem taken_of_full {bs : List UInt8} (i j : Interaction α) (line : Log.Record → String)
    (m m' : WhenFull) (v w : World) (hb : l ≤ bs.length) :
    ((i.watchedBy line ⟨some l, m, bs.take l⟩).run v).result.2.taken =
      ((j.watchedBy line ⟨none, m', bs⟩).run w).result.2.taken.take l := by
  have hf : (bs.take l).length = l := List.length_take_of_le hb
  have hi := grows_watchedBy i line ⟨some l, m, bs.take l⟩ v
  obtain ⟨more, hj⟩ := (grows_watchedBy j line ⟨none, m', bs⟩ w).taken
  rw [hi.taken_of_full rfl (Sink.within_of_le m (Nat.le_of_eq hf)) hf, ← hj,
    List.take_append_of_le_length hb]

/-- As long as all fits, two runs before watchers with and without a limit go together; from the
first text on that does not fit, the limited watcher is full. -/
theorem taken_watchedBy_of_limited (i : Interaction α) (line : Log.Record → String)
    (m m' : WhenFull) (taken : List UInt8) (hl : taken.length ≤ l) (w : World) :
    ((i.watchedBy line ⟨some l, m, taken⟩).run w).result.2.taken =
      ((i.watchedBy line ⟨none, m', taken⟩).run w).result.2.taken.take l := by
  have hw := Sink.within_of_le m hl
  induction i generalizing taken w with
  | done a => exact (List.take_of_length_le hl).symm
  | send r next ih => exact ih _ taken hl _ hw
  | save p d next ih =>
    simp only [watchedBy, run]
    exact ih _ taken hl _ hw
  | tell ps next ih =>
    rw [watchedBy, watchedBy, Sink.writeAll_of_unlimited]
    by_cases hb : (taken ++ (ps.map octets).flatten).length ≤ l
    · rw [Sink.writeAll_of_le rfl (by rwa [List.length_append] at hb)]
      exact ih _ _ hb w (Sink.within_of_le m hb)
    · rw [Sink.writeAll_of_lt rfl hw (by rwa [List.length_append, Nat.not_le] at hb)]
      exact taken_of_full _ _ line m m' w w (Nat.le_of_not_le hb)
  | record r next ih =>
    rw [watchedBy, watchedBy, Sink.writeText, Sink.writeText]
    by_cases hb : (taken ++ octets (line r)).length ≤ l
    · rw [Sink.write_of_le rfl (by rwa [List.length_append] at hb)]
      exact ih _ hb w (Sink.within_of_le m hb)
    · rw [Sink.write_of_lt rfl hw (by rwa [List.length_append, Nat.not_le] at hb)]
      exact taken_of_full _ _ line m m' w w (Nat.le_of_not_le hb)

end Interaction

end SchemaSnapshot
