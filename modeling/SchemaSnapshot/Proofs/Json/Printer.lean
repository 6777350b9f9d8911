import SchemaSnapshot.Proofs.Json.Entries
import SchemaSnapshot.Proofs.Json.Layout
import SchemaSnapshot.Proofs.Json.Reading
import SchemaSnapshot.Proofs.Json.Unambiguous

namespace SchemaSnapshot.Json
open Grammar

namespace Grammar

def HexDigit.small (n : Fin 16) : HexDigit :=
  ⟨n.val.digitChar, by revert n; decide⟩

def controlQuad (n : Fin 32) : HexQuad :=
  ⟨HexDigit.small 0, HexDigit.small 0, HexDigit.small ⟨n / 16, by omega⟩,
    HexDigit.small ⟨n % 16, by omega⟩⟩

/-- What a control character is printed as. -/
def controlUnit (n : Fin 32) : StringUnit :=
  match n.val with
  | 0x08 => .short .backspace
  | 0x09 => .short .tab
  | 0x0A => .short .lineFeed
  | 0x0C => .short .formFeed
  | 0x0D => .short .carriageReturn
  | _ => .hex (controlQuad n)

theorem controlUnit_chars : ∀ n : Fin 32, (controlUnit n).chars = escape (Char.ofNat n) := by
  decide

theorem controlUnit_content :
    ∀ n : Fin 32, Literal.contentChars [controlUnit n] = [Char.ofNat n] := by
  decide

theorem controlQuad_scalar :
    ∀ n : Fin 32, ¬ (controlQuad n).IsHigh ∧ ¬ (controlQuad n).IsLow := by
  decide

theorem controlUnit_paired (n : Fin 32) : Literal.Paired [controlUnit n] := by
  unfold controlUnit
  split
  · exact .short .nil
  · exact .short .nil
  · exact .short .nil
  · exact .short .nil
  · exact .short .nil
  · exact .scalar (controlQuad_scalar n).1 (controlQuad_scalar n).2 .nil

theorem escape_plain (h : 0x20 ≤ c.toNat) (hq : c ≠ '"') (hb : c ≠ '\\') : escape c = [c] := by
  unfold escape
  split
  · exact absurd rfl hq
  · exact absurd rfl hb
  · exact absurd h (by decide)
  · exact absurd h (by decide)
  · exact absurd h (by decide)
  · exact absurd h (by decide)
  · exact absurd h (by decide)
  · rw [if_neg (by omega), if_neg (by omega)]

theorem exists_unit (c : Char) :
    ∃ u : StringUnit, u.chars = escape c ∧ Literal.Paired [u] ∧
      Literal.contentChars [u] = [c] := by
  by_cases hlow : 0x20 ≤ c.toNat
  · by_cases hq : c = '"'
    · subst hq
      exact ⟨.short .quote, rfl, .short .nil, rfl⟩
    · by_cases hb : c = '\\'
      · subst hb
        exact ⟨.short .backslash, rfl, .short .nil, rfl⟩
      · exact ⟨.plain ⟨c, hlow, hq, hb⟩, (escape_plain hlow hq hb).symm, .plain .nil, rfl⟩
  · let n : Fin 32 := ⟨c.toNat, Nat.not_le.mp hlow⟩
    have hn : Char.ofNat n = c := Char.ofNat_toNat c
    have hchars := controlUnit_chars n
    have hcontent := controlUnit_content n
    rw [hn] at hchars hcontent
    exact ⟨controlUnit n, hchars, controlUnit_paired n, hcontent⟩

theorem exists_literal (s : String) :
    ∃ l : Literal, l.chars = literal s ∧ l.Paired ∧ l.content = s := by
  have h : ∀ cs : List Char, ∃ l : Literal, l.body = cs.flatMap escape ∧ l.Paired ∧
      l.contentChars = cs := by
    intro cs
    induction cs with
    | nil => exact ⟨[], rfl, .nil, rfl⟩
    | cons c cs ih =>
      obtain ⟨u, hu, hp, hc⟩ := exists_unit c
      obtain ⟨l, hl, hlp, hlc⟩ := ih
      refine ⟨[u] ++ l, ?_, hp.append hlp, ?_⟩
      · rw [Literal.body_append, hl, List.flatMap_cons, ← hu]
        simp [Literal.body]
      · rw [hp.contentChars_append, hc, hlc]
        rfl
  obtain ⟨l, hl, hp, hc⟩ := h s.toList
  refine ⟨l, by rw [Literal.chars, hl, literal], hp, ?_⟩
  rw [Literal.content, hc, String.ofList_toList]

mutual

/-- A derivation as the printer makes it: its numbers are kept as they are, none of its objects
stands for a number, and the keys of each are distinct. -/
def Node.Settled : Node → Prop
  | .number n => keptChars n.chars = n.chars
  | .array _ v tail => v.Settled ∧ tail.Settled
  | .object label v tail =>
    label.key.content ≠ numberKey ∧ (label.key.content :: tail.entries.map Entry.name).Nodup ∧
      v.Settled ∧ tail.Settled
  | _ => True

def ItemTail.Settled : ItemTail → Prop
  | .close _ => True
  | .next _ _ v tail => v.Settled ∧ tail.Settled

def EntryTail.Settled : EntryTail → Prop
  | .close _ => True
  | .next _ _ v tail => v.Settled ∧ tail.Settled

end

theorem Literal.of_chars {l : Literal} (h : l.chars = literal s) :
    l.Paired ∧ l.content = s := by
  obtain ⟨m, hm, hp, hc⟩ := exists_literal s
  have hlm : l.chars ++ [] = m.chars ++ [] := by rw [h, hm]
  obtain ⟨rfl, _⟩ := Literal.chars_append_inj hlm
  exact ⟨hp, hc⟩

end Grammar

namespace Layout

mutual

theorem exists_writes (f : Layout) (depth : Nat) {v : Value} (h : v.WellFormed) :
    ∃ n, f.Writes depth v n := by
  match v with
  | .null => exact ⟨.null, .null⟩
  | .bool b => exact ⟨.bool b, .bool⟩
  | .number text =>
    obtain ⟨n, hn⟩ := h
    exact ⟨.number n, .number hn⟩
  | .string s =>
    obtain ⟨l, hl, _⟩ := exists_literal s
    exact ⟨.string l, .string hl⟩
  | .array [] => exact ⟨.emptyArray [], .emptyArray⟩
  | .array (v :: vs) =>
    obtain ⟨n, hn⟩ := exists_writes f (depth + 1) h.1
    obtain ⟨tail, ht⟩ := exists_writesItems f depth h.2
    exact ⟨_, .array hn ht⟩
  | .object [] => exact ⟨.emptyObject [], .emptyObject⟩
  | .object ((key, v) :: ms) =>
    obtain ⟨l, hl, _⟩ := exists_literal key
    obtain ⟨n, hn⟩ := exists_writes f (depth + 1) h.1
    obtain ⟨tail, ht⟩ := exists_writesEntries f depth h.2
    exact ⟨_, .object hl hn ht⟩

theorem exists_writesItems (f : Layout) (depth : Nat) {vs : List Value}
    (h : Value.ItemsWellFormed vs) : ∃ tail, f.WritesItems depth vs tail := by
  match vs with
  | [] => exact ⟨_, .close⟩
  | v :: vs =>
    obtain ⟨n, hn⟩ := exists_writes f (depth + 1) h.1
    obtain ⟨tail, ht⟩ := exists_writesItems f depth h.2
    exact ⟨_, .next hn ht⟩

theorem exists_writesEntries (f : Layout) (depth : Nat) {ms : Members}
    (h : Value.MembersWellFormed ms) : ∃ tail, f.WritesEntries depth ms tail := by
  match ms with
  | [] => exact ⟨_, .close⟩
  | (key, v) :: ms =>
    obtain ⟨l, hl, _⟩ := exists_literal key
    obtain ⟨n, hn⟩ := exists_writes f (depth + 1) h.1
    obtain ⟨tail, ht⟩ := exists_writesEntries f depth h.2
    exact ⟨_, .next hl hn ht⟩

end

variable {f : Layout}

mutual

theorem Writes.fine (h : f.Writes depth v n) (hv : v.Readable room) :
    n.Fine room ∧ n.Settled ∧ n.value = v := by
  match h with
  | .null => exact ⟨Node.fine_null _, trivial, rfl⟩
  | .bool => exact ⟨Node.fine_bool _ _, trivial, rfl⟩
  | .number hn =>
    obtain ⟨m, hm, hk⟩ := hv
    obtain rfl := Numeral.chars_injective (hn.symm.trans hm)
    refine ⟨Node.fine_number _ _, hk, ?_⟩
    rw [Node.value, hk, ← hn, String.ofList_toList]
  | .string hl =>
    obtain ⟨hp, rfl⟩ := Literal.of_chars hl
    exact ⟨Node.fine_string hp _, trivial, rfl⟩
  | .emptyArray => exact ⟨Node.fine_emptyArray.mpr hv.1, trivial, rfl⟩
  | .array hn ht =>
    obtain ⟨hroom, hv, hvs⟩ := hv
    obtain ⟨k, rfl⟩ := Nat.exists_eq_succ_of_ne_zero (Nat.ne_of_gt hroom)
    obtain ⟨hf, hs, rfl⟩ := hn.fine hv
    obtain ⟨hft, hst, rfl⟩ := ht.fine hvs
    exact ⟨Node.fine_array.mpr ⟨hf, hft⟩, ⟨hs, hst⟩, rfl⟩
  | .emptyObject => exact ⟨Node.fine_emptyObject.mpr hv.1, trivial, rfl⟩
  | .object hl hn ht =>
    obtain ⟨hroom, hkeys, hhead, hv, hms⟩ := hv
    obtain ⟨k, rfl⟩ := Nat.exists_eq_succ_of_ne_zero (Nat.ne_of_gt hroom)
    obtain ⟨hf, hs, rfl⟩ := hn.fine hv
    obtain ⟨hft, hst, rfl⟩ := ht.fine hms
    obtain ⟨hp, rfl⟩ := Literal.of_chars hl
    have hne : Literal.content _ ≠ numberKey := fun hk => hhead (congrArg some hk)
    rw [Members.keys, List.map_cons, List.map_map] at hkeys
    exact ⟨Node.fine_object.mpr ⟨hp, fun hk => absurd hk hne, hf, hft⟩, ⟨hne, hkeys, hs, hst⟩,
      Node.value_of_entries? (Node.entries?_object hne) hkeys⟩

theorem WritesItems.fine (h : f.WritesItems depth vs tail) (hv : Value.ItemsReadable room vs) :
    tail.Fine room ∧ tail.Settled ∧ tail.values = vs := by
  match h with
  | .close => exact ⟨ItemTail.fine_close _ _, trivial, rfl⟩
  | .next hn ht =>
    obtain ⟨hf, hs, rfl⟩ := hn.fine hv.1
    obtain ⟨hft, hst, rfl⟩ := ht.fine hv.2
    exact ⟨ItemTail.fine_next.mpr ⟨hf, hft⟩, ⟨hs, hst⟩, rfl⟩

theorem WritesEntries.fine (h : f.WritesEntries depth ms tail)
    (hv : Value.MembersReadable room ms) :
    tail.Fine room ∧ tail.Settled ∧ tail.entries.map Entry.member = ms := by
  match h with
  | .close => exact ⟨EntryTail.fine_close _ _, trivial, rfl⟩
  | .next hl hn ht =>
    obtain ⟨hf, hs, rfl⟩ := hn.fine hv.1
    obtain ⟨hft, hst, rfl⟩ := ht.fine hv.2
    obtain ⟨hp, rfl⟩ := Literal.of_chars hl
    exact ⟨EntryTail.fine_next.mpr ⟨hp, hf, hft⟩, ⟨hs, hst⟩, rfl⟩

end

end Layout

namespace Value

/-- However a document is laid out, that is a text of it. -/
theorem exists_text (f : Layout) {v : Value} (h : v.Readable room) :
    ∃ t : Text, t.chars = v.laidOut f 0 ∧ t.node.Fine room ∧ t.node.Settled ∧ t.value = v := by
  obtain ⟨n, hn⟩ := f.exists_writes 0 h.wellFormed
  obtain ⟨hf, hs, hv⟩ := hn.fine h
  refine ⟨⟨[], n, []⟩, ?_, hf, hs, hv⟩
  rw [← hn.chars, Text.chars]
  exact List.append_nil n.chars

end Value

theorem readable_of_read (h : read bs = .ok v) : v.Readable maxDepth := by
  obtain ⟨t, rfl, hp, hs, hd, rfl⟩ := read_eq_ok_iff_text.mp h
  exact t.node.readable ⟨hp, hs, hd⟩

/-- What was read is read back, however it is laid out. -/
theorem read_laidOut (f : Layout) (h : read bs = .ok v) :
    read (Utf8.encode (v.laidOut f 0)) = .ok v := by
  obtain ⟨t, ht, ⟨hp, hs, hd⟩, _, hv⟩ := Value.exists_text f (readable_of_read h)
  exact read_eq_ok_iff_text.mpr ⟨t, by rw [ht], hp, hs, hd, hv⟩

theorem read_pretty (h : read bs = .ok v) : read (octets v.pretty) = .ok v := by
  rw [v.octets_pretty]
  exact read_laidOut .indented h

theorem read_compact (h : read bs = .ok v) : read (octets v.compact) = .ok v := by
  rw [v.octets_compact]
  exact read_laidOut .tight h

namespace Value

mutual

/-- The document with each number replaced by what the reader keeps of its text. -/
def reread : Value → Value
  | .number text =>
    match read (octets text) with
    | .ok v => v
    | .error _ => .number text
  | .array vs => .array (rereadItems vs)
  | .object ms => .object (rereadMembers ms)
  | v => v

def rereadItems : List Value → List Value
  | [] => []
  | v :: vs => v.reread :: rereadItems vs

def rereadMembers : List (String × Value) → List (String × Value)
  | [] => []
  | (key, v) :: ms => (key, v.reread) :: rereadMembers ms

end

theorem read_kept (h : IsKept text) : read (octets text) = .ok (.number text) := by
  obtain ⟨n, hn, hk⟩ := h
  refine read_eq_ok_iff_text.mpr ⟨⟨[], .number n, []⟩, ?_, trivial, trivial, Nat.zero_le _, ?_⟩
  · rw [octets, hn, Text.chars, Node.chars]
    simp
  · rw [Text.value, Node.value, hk, ← hn, String.ofList_toList]

mutual

theorem reread_eq_self (v : Value) (h : v.Readable room) : v.reread = v := by
  match v with
  | .null => rfl
  | .bool b => rfl
  | .number text => rw [reread, read_kept h]
  | .string s => rfl
  | .array vs => rw [reread, rereadItems_eq_self vs h.2]
  | .object ms => rw [reread, rereadMembers_eq_self ms h.2.2.2]

theorem rereadItems_eq_self (vs : List Value) (h : ItemsReadable room vs) :
    rereadItems vs = vs := by
  match vs with
  | [] => rfl
  | v :: vs => rw [rereadItems, reread_eq_self v h.1, rereadItems_eq_self vs h.2]

theorem rereadMembers_eq_self (ms : List (String × Value)) (h : MembersReadable room ms) :
    rereadMembers ms = ms := by
  match ms with
  | [] => rfl
  | (key, v) :: ms => rw [rereadMembers, reread_eq_self v h.1, rereadMembers_eq_self ms h.2]

end

end Value

end SchemaSnapshot.Json
