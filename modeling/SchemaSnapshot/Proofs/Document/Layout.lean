import SchemaSnapshot.Proofs.Document.Numbers
import SchemaSnapshot.Proofs.Json.Lines

namespace SchemaSnapshot

namespace Document
open Json Grammar

theorem pretty_toList (d : Document) : d.pretty.toList = d.value.prettyChars :=
  String.toList_ofList

theorem compact_toList (d : Document) : d.compact.toList = d.value.compactChars :=
  String.toList_ofList

theorem wellFormed_of_read (h : read b = .ok d) : d.value.WellFormed :=
  (readable_of_read (read_eq_ok_iff.mp h)).wellFormed

/-- The pretty text has no blanks around the document, and in it those of its layout. -/
theorem exists_writes_written {d : Document} (h : d.value.WellFormed) :
    ∃ n, Text.Derives ⟨[], n, []⟩ d.written ∧ Layout.indented.Writes 0 d.value n := by
  obtain ⟨n, hn⟩ := Layout.indented.exists_writes 0 h
  refine ⟨n, Text.derives_iff.mpr ?_, hn⟩
  rw [written_eq, pretty, Value.octets_pretty, ← hn.chars]
  exact congrArg Utf8.encode (List.append_nil n.chars).symm

/-- Without the blanks outside of its strings the pretty text, which is what is written, is the
compact one. Both are read as the same document, and its version is shown as they have it. -/
theorem compact_of_pretty (h : read b = .ok d) :
    d.written = octets d.pretty ∧ withoutBlanks d.pretty.toList = d.compact.toList ∧
      (∀ c ∈ bare d.pretty.toList, IsBlank c ∨ IsVisible c) ∧
      (∀ c ∈ bare d.compact.toList, IsVisible c) ∧
      read d.written = .ok d ∧ read (octets d.compact) = .ok d ∧
      (∀ s, d.version? = some (.string s) → d.versionLabel = s) ∧
      (d.version? = none → d.versionLabel = "unknown") ∧
      ∃ pretty : Text, pretty.Derives d.written ∧
        ∀ v, d.version? = some v → (∀ s, v ≠ .string s) →
          d.versionLabel = v.compact ∧
            ∃ n, pretty.node.at? [.member "version"] = some n ∧ n.value = v ∧
              withoutBlanks n.chars = d.versionLabel.toList := by
  have hv := read_eq_ok_iff.mp h
  have hr := readable_of_read hv
  have hw := wellFormed_of_read h
  obtain ⟨n, hn, hwrites⟩ := exists_writes_written hw
  have hread : read d.written = .ok d := by
    rw [written_eq]
    exact read_eq_ok_iff.mpr (read_pretty hv)
  rw [pretty_toList, compact_toList, Value.prettyChars_eq]
  refine ⟨written_eq d, Value.withoutBlanks_laidOut .indented 0 hw,
    (Value.erases_laidOut .indented 0 hw).bare, Value.isVisible_of_mem_bare hw, hread,
    read_eq_ok_iff.mpr (read_compact hv), ?_, ?_, ⟨[], n, []⟩, hn, ?_⟩
  · intro s hs
    rw [versionLabel, hs]
  · intro hn
    rw [versionLabel, hn]
    rfl
  · intro v hver hs
    have hat : d.value.at? [.member "version"] = some v := by
      rw [Value.at?, Value.child?_member]
      exact congrArg (Option.bind · _) hver
    obtain ⟨m, k, hm, hmv, hvw, hmw⟩ := hwrites.at? hr hat
    have hlabel := versionLabel_of_compact hver hs
    refine ⟨hlabel, m, hm, hmv, ?_⟩
    rw [hmw.chars, Value.withoutBlanks_laidOut .indented k hvw, hlabel, Value.compact,
      String.toList_ofList]

/-- The text is `{"version":["a b"]}`. -/
theorem compact_of_pretty_version :
    read [0x7B, 0x22, 0x76, 0x65, 0x72, 0x73, 0x69, 0x6F, 0x6E, 0x22, 0x3A, 0x5B,
        0x22, 0x61, 0x20, 0x62, 0x22, 0x5D, 0x7D] =
        .ok ⟨.object [("version", .array [.string "a b"])]⟩ ∧
      versionLabel ⟨.object [("version", .array [.string "a b"])]⟩ = "[\"a b\"]" := by
  have h : read [0x7B, 0x22, 0x76, 0x65, 0x72, 0x73, 0x69, 0x6F, 0x6E, 0x22, 0x3A,
      0x5B, 0x22, 0x61, 0x20, 0x62, 0x22, 0x5D, 0x7D] =
      .ok ⟨.object [("version", .array [.string "a b"])]⟩ := rfl
  obtain ⟨_, _, _, _, _, _, _, _, _, _, hver⟩ := compact_of_pretty h
  exact ⟨h, (hver (.array [.string "a b"]) rfl (fun _ => nofun)).1⟩

/-- The pretty text in lines, which is what is written, for every document whose numbers are
numbers of JSON, as in all that were read. Its only controls are the line feeds between lines;
each line is indented by what is open where it begins and ends visibly, and all blanks are those
of the layout. -/
theorem lines_of_pretty {d : Document} (h : d.value.WellFormed) :
    d.written = octets d.pretty ∧
      (∀ l c r, d.pretty.toList = l ++ c :: r → c.toNat < 0x20 → c = '\n' ∧ Closed l) ∧
      (∃ c r, d.pretty.toList = c :: r ∧ IsVisible c) ∧ EndsVisibly d.pretty.toList ∧
      (∀ ls line rs, SchemaSnapshot.Text.split (· = '\n') d.pretty.toList = ls ++ line :: rs →
        EndsVisibly line ∧ Indented (ls.flatMap (· ++ ['\n'])) line) ∧
      ∃ n, Text.Derives ⟨[], n, []⟩ d.written ∧ Layout.indented.Writes 0 d.value n := by
  have hlined := Value.lined_prettyChars h
  obtain ⟨c, r, hc, hvisible, hn⟩ := Value.starts_laidOut .indented 0 h
  have hends := Value.ends_laidOut .indented 0 h
  rw [← Value.prettyChars_eq] at hc hends
  rw [pretty_toList]
  refine ⟨written_eq d, fun _ _ _ => eq_lineFeed_of_control hlined, ⟨c, r, hc, hvisible⟩,
    hends, ?_, exists_writes_written h⟩
  intro _ _ _ hsplit
  exact line_of_split hlined ⟨c, r, hc, hvisible, hn⟩ hends hsplit

/-- The second line of `[[]]`. -/
theorem lines_of_pretty_nested :
    read [0x5B, 0x5B, 0x5D, 0x5D] = .ok ⟨.array [.array []]⟩ ∧
      Value.WellFormed (.array [.array []]) ∧ Indented ['[', '\n'] [' ', ' ', '[', ']'] := by
  have h : read [0x5B, 0x5B, 0x5D, 0x5D] = .ok ⟨.array [.array []]⟩ := rfl
  have hw := wellFormed_of_read h
  obtain ⟨_, _, _, _, hlines, _⟩ := lines_of_pretty hw
  exact ⟨h, hw, (hlines [['[']] [' ', ' ', '[', ']'] [[']']] (by decide)).2⟩

end Document

end SchemaSnapshot
