import SchemaSnapshot.Proofs.Document
import SchemaSnapshot.Proofs.Json.Place

namespace SchemaSnapshot

namespace Json.Grammar

/-- What a literal stands for, part by part. An escape by number is of a code point, and two of
a pair are of one above the basic plane. -/
inductive Literal.Decodes : Literal → List Char → Prop
  | nil : Decodes [] []
  | plain (u : PlainChar) : Decodes l cs → Decodes (.plain u :: l) (u.val :: cs)
  | short (e : ShortEscape) : Decodes l cs → Decodes (.short e :: l) (e.char :: cs)
  | scalar : c.toNat = q.code → Decodes l cs → Decodes (.hex q :: l) (c :: cs)
  | pair : q.IsHigh → r.IsLow →
      c.toNat = 0x10000 + (q.code - 0xD800) * 0x400 + (r.code - 0xDC00) → Decodes l cs →
      Decodes (.hex q :: .hex r :: l) (c :: cs)

theorem HexDigit.value_lt (d : HexDigit) : HexDigit.value d < 16 := by
  obtain ⟨_, _, hv⟩ | ⟨_, _, hv⟩ | ⟨_, _, hv⟩ := HexDigit.value_cases d
  · omega
  · omega
  · omega

theorem HexQuad.code_lt (q : HexQuad) : q.code < 0x10000 := by
  have h₁ := HexDigit.value_lt q.first
  have h₂ := HexDigit.value_lt q.second
  have h₃ := HexDigit.value_lt q.third
  have h₄ := HexDigit.value_lt q.fourth
  rw [code]
  omega

theorem HexQuad.toNat_scalar {q : HexQuad} (hq : ¬ q.IsHigh) (hq' : ¬ q.IsLow) :
    (Char.ofNat q.code).toNat = q.code := by
  have hlt := q.code_lt
  unfold IsHigh at hq
  unfold IsLow at hq'
  apply Utf8.val_ofNat
  unfold Nat.isValidChar
  omega

theorem HexQuad.toNat_pair {q r : HexQuad} (hq : q.IsHigh) (hr : r.IsLow) :
    (surrogatePair q.code r.code).toNat =
      0x10000 + (q.code - 0xD800) * 0x400 + (r.code - 0xDC00) := by
  obtain ⟨_, _⟩ := hq
  obtain ⟨_, _⟩ := hr
  apply Utf8.val_ofNat
  unfold Nat.isValidChar
  omega

theorem Literal.Paired.decodes (h : Paired l) : l.Decodes l.contentChars := by
  induction h with
  | nil => exact .nil
  | plain _ ih => exact .plain _ ih
  | short _ ih => exact .short _ ih
  | scalar hq hq' _ ih =>
    rw [contentChars_scalar hq]
    exact .scalar (HexQuad.toNat_scalar hq hq') ih
  | pair hq hr _ ih =>
    rw [contentChars_pair hq hr]
    exact .pair hq hr (HexQuad.toNat_pair hq hr) ih

end Json.Grammar

namespace Document
open Json Grammar

/-- Wherever an object stands in a text, the document has there what becomes of its members, and
writes them in their order; strings and keys are decoded. The version is what the last member
with that name has. -/
theorem objects_of_read (h : read b = .ok d) :
    ∃ t pretty : Text, t.Derives b ∧ pretty.Derives d.written ∧
      (∀ p n es, t.node.at? p = some n → n.entries? = some es →
        ∃ ms, d.value.at? p = some (.object ms) ∧ Become es ms ∧
          ∀ e ∈ es, e.key.Decodes e.name.toList) ∧
      (∀ p l, t.node.at? p = some (.string l) →
        ∃ s : String, d.value.at? p = some (.string s) ∧ l.Decodes s.toList) ∧
      (∀ p ms, d.value.at? p = some (.object ms) →
        ∃ n es, pretty.node.at? p = some n ∧ n.entries? = some es ∧ es.map Entry.member = ms) ∧
      d.version? = (t.node.entries?.bind (lastWith "version")).map Node.value ∧
      (d.version? = none ↔ (∀ ms, d.value ≠ .object ms) ∨
        ∃ es, t.node.entries? = some es ∧ ∀ e ∈ es, e.name ≠ "version") := by
  have hv := read_eq_ok_iff.mp h
  obtain ⟨t, ht, htp, htv⟩ := exists_derives_of_read hv
  obtain ⟨pretty, hp, hps, hpv⟩ := Value.exists_derives_pretty (readable_of_read hv)
  have hpairs {p n} (hn : t.node.at? p = some n) : n.PairsSurrogates :=
    inherited_pairsSurrogates.at? htp hn
  have hversion : d.version? = (t.node.entries?.bind (lastWith "version")).map Node.value := by
    rw [version?, ← Value.child?_member, ← htv, Node.value_child?_member]
  refine ⟨t, pretty, ht, by rwa [written_eq], ?_, ?_, ?_, hversion, ?_⟩
  · intro p n es hn hes
    obtain ⟨ms, hms, hb⟩ := Node.exists_members hes
    refine ⟨ms, ?_, hb, ?_⟩
    · rw [← htv, t.node.value_at?, hn, Option.map_some, hms]
    · intro e he
      rw [Entry.name, Literal.content, String.toList_ofList]
      exact (inherited_pairsSurrogates.entries (hpairs hn) hes e he).1.decodes
  · intro p l hn
    refine ⟨l.content, ?_, ?_⟩
    · rw [← htv, t.node.value_at?, hn]
      rfl
    · rw [Literal.content, String.toList_ofList]
      exact Literal.Paired.decodes (hpairs hn)
  · intro p ms hms
    rw [← hpv, pretty.node.value_at?] at hms
    obtain ⟨n, hn, hnv⟩ := Option.map_eq_some_iff.mp hms
    obtain ⟨es, hes, _⟩ := Node.entries?_of_value hnv
    have hkeys := (inherited_settled.at? hps hn).nodup_names hes
    exact ⟨n, es, hn, hes, Value.object.inj ((Node.value_of_entries? hes hkeys).symm.trans hnv)⟩
  · rw [hversion, Option.map_eq_none_iff, ← htv, ← Node.entries?_eq_none_iff]
    cases t.node.entries? with
    | none => simp
    | some es => simp [lastWith_eq_none_iff]

/-- The text is `{"a":1,"\u0061":2}`. -/
theorem objects_of_escaped_key :
    read [0x7B, 0x22, 0x61, 0x22, 0x3A, 0x31, 0x2C, 0x22, 0x5C, 0x75, 0x30, 0x30,
        0x36, 0x31, 0x22, 0x3A, 0x32, 0x7D] = .ok ⟨.object [("a", .number "2")]⟩ ∧
      ∃ (pretty : Text) (es : List Entry),
        pretty.Derives (written ⟨.object [("a", .number "2")]⟩) ∧
        pretty.node.entries? = some es ∧ es.map Entry.member = [("a", .number "2")] := by
  have h : read [0x7B, 0x22, 0x61, 0x22, 0x3A, 0x31, 0x2C, 0x22, 0x5C, 0x75, 0x30,
      0x30, 0x36, 0x31, 0x22, 0x3A, 0x32, 0x7D] = .ok ⟨.object [("a", .number "2")]⟩ := rfl
  obtain ⟨_, pretty, _, hp, _, _, hpretty, _⟩ := objects_of_read h
  obtain ⟨n, es, hn, hes, hms⟩ := hpretty [] _ rfl
  obtain rfl := Option.some.inj hn
  exact ⟨h, pretty, es, hp, hes, hms⟩

end Document

end SchemaSnapshot
