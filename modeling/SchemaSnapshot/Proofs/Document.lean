import SchemaSnapshot.Document
import SchemaSnapshot.Proofs.Json.Printer
import SchemaSnapshot.Proofs.Sink

namespace SchemaSnapshot

theorem Utf8.encode_flatten (ps : List (List Char)) :
    Utf8.encode ps.flatten = (ps.map Utf8.encode).flatten := by
  induction ps with
  | nil => rfl
  | cons p ps ih => rw [List.flatten_cons, Utf8.encode_append, ih, List.map_cons,
      List.flatten_cons]

namespace Document

theorem read_eq_ok_iff {d : Document} : read b = .ok d ↔ Json.read b = .ok d.value := by
  rw [read]
  cases Json.read b with
  | ok v =>
    constructor
    · intro h
      obtain rfl := Except.ok.inj h
      rfl
    · intro h
      obtain rfl := Except.ok.inj h
      rfl
  | error e => simp [Except.map]

/-- Exactly the texts in UTF-8 that the grammar of JSON derives are documents, as long as their
surrogates are paired, their nesting is at most 127 deep and the objects that stand for numbers
hold one. -/
theorem exists_read_iff_text (b : List UInt8) :
    (∃ d, read b = .ok d) ↔
      ∃ cs, Utf8.decode? b = some cs ∧
        ∃ t : Json.Grammar.Text, t.chars = cs ∧ t.PairsSurrogates ∧ t.depth ≤ 127 ∧
          t.SealsNumbers := by
  constructor
  · rintro ⟨d, h⟩
    obtain ⟨t, rfl, hp, hs, hd, _⟩ := Json.read_eq_ok_iff_text.mp (read_eq_ok_iff.mp h)
    exact ⟨t.chars, Utf8.decode?_encode t.chars, t, rfl, hp, hd, hs⟩
  · rintro ⟨_, hb, t, rfl, hp, hd, hs⟩
    refine ⟨⟨t.value⟩, read_eq_ok_iff.mpr (Json.read_eq_ok_iff_text.mpr ?_)⟩
    exact ⟨t, Utf8.decode?_eq_some_iff.mp hb, hp, hs, hd, rfl⟩

/-- What reaches a writer without a limit. -/
def written (d : Document) : List UInt8 :=
  (d.writeTo .unlimited).1.taken

theorem writeTo_unlimited (d : Document) :
    d.writeTo .unlimited = (⟨none, .refuses, octets d.pretty⟩, .ok ()) := by
  rw [writeTo, Sink.unlimited, Sink.writeAll_of_unlimited,
    ← Utf8.encode_flatten, octets, pretty,
    Json.Value.pretty, String.toList_ofList]
  rfl

theorem written_eq (d : Document) : d.written = octets d.pretty := by
  rw [written, writeTo_unlimited]

/-- A writer with room for so many more octets takes the beginning of the pretty text, and its
own failure is the result if that is not all of it, however the text is cut into writes. -/
theorem writeTo_limited (d : Document) (before : List UInt8) (room : Nat) (m : WhenFull) :
    let s : Sink := ⟨some (before.length + room), m, before⟩
    let text := octets d.pretty
    (d.writeTo s).1.taken = before ++ text.take room ∧
      ((d.writeTo s).2 = .ok () ↔ text.length ≤ room) ∧
      (room < text.length → ∃ e, (d.writeTo s).2 = .error e ∧
        (e.kind, e.message) = match m with
          | .refuses => ("BrokenPipe", "pipe is gone")
          | .takesNothing => ("WriteZero", "failed to write whole buffer")) ∧
      ∀ ps, ps.flatten = text → s.writeAll ps = d.writeTo s := by
  intro s text
  have hs : s.Within := Sink.within_of_le m (Nat.le_add_right _ _)
  have hw : d.writeTo s = s.write text := by
    rw [writeTo, Sink.writeAll_eq_write hs, ← Utf8.encode_flatten]
    exact congrArg (fun cs => s.write (Utf8.encode cs)) String.toList_ofList.symm
  have htaken : (s.write text).1.taken = before ++ text.take room := by
    simp [Sink.write, Sink.part, s]
  have hresult : (s.write text).2 = if text.length ≤ room then .ok () else .error m.error := by
    simp [Sink.write, Sink.hasRoom, s]
  rw [hw]
  refine ⟨htaken, ?_, ?_, ?_⟩
  · rw [hresult]
    split
    · next hb => exact iff_of_true rfl hb
    · next hb => exact iff_of_false (by simp) hb
  · intro hl
    refine ⟨m.error, by rw [hresult, if_neg (Nat.not_le.mpr hl)], ?_⟩
    cases m with
    | refuses => rfl
    | takesNothing => rfl
  · intro ps hp
    rw [Sink.writeAll_eq_write hs, hp]

/-- The pretty text of a document that was read is a document again, the same one in every part,
and is written the same. -/
theorem read_written (h : read b = .ok d) :
    (d.writeTo .unlimited).2 = .ok () ∧
      ∃ d', read d.written = .ok d' ∧ d'.value = d.value.reread ∧ (d' == d) = true ∧
        d'.written = d.written ∧ read d'.written = .ok d' := by
  have hv := read_eq_ok_iff.mp h
  have hr := Json.readable_of_read hv
  have hread : read d.written = .ok d := by
    rw [written_eq]
    exact read_eq_ok_iff.mpr (Json.read_pretty hv)
  refine ⟨by rw [writeTo_unlimited], d, hread, ?_, ?_, rfl, hread⟩
  · rw [Json.Value.reread_eq_self d.value hr]
  · exact Json.Value.same_self d.value hr

theorem read_written_exponent :
    read [0x5B, 0x31, 0x45, 0x35, 0x5D] = .ok ⟨.array [.number "1e+5"]⟩ ∧
      ∃ d', read (written ⟨.array [.number "1e+5"]⟩) = .ok d' ∧
        d'.value = Json.Value.reread (.array [.number "1e+5"]) := by
  have h : read [0x5B, 0x31, 0x45, 0x35, 0x5D] = .ok ⟨.array [.number "1e+5"]⟩ := rfl
  obtain ⟨_, d', hd, hv, _⟩ := read_written h
  exact ⟨h, d', hd, hv⟩

end Document

end SchemaSnapshot
