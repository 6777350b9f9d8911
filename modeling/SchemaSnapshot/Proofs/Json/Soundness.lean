import SchemaSnapshot.Proofs.Json.Literal
import SchemaSnapshot.Proofs.Json.Number
import SchemaSnapshot.Proofs.Json.Steps

namespace SchemaSnapshot.Json
open Grammar

/-- The text goes on with these characters after any blanks, and then with `r`. -/
def Spaced (cs : List Char) (bs r : List UInt8) : Prop :=
  ∃ before : List Blank, bs = Utf8.encode (before.unattach ++ cs) ++ r

def Closes : List Frame → Value → List UInt8 → Value → Prop
  | [], u, bs, v => ∃ after : List Blank, bs = Utf8.encode after.unattach ∧ u = v
  | .array items :: stack, u, bs, v =>
    ∃ tail : ItemTail, ∃ r, bs = Utf8.encode tail.chars ++ r ∧
      tail.Fine (roomIn (.array items :: stack)) ∧
      Closes stack (.array (items.reverse ++ u :: tail.values)) r v
  | .member ms key :: stack, u, bs, v =>
    ∃ tail : EntryTail, ∃ r, bs = Utf8.encode tail.chars ++ r ∧
      tail.Fine (roomIn (.member ms key :: stack)) ∧
      Closes stack (.object (tail.members (ms.insert key u))) r v

/-- The text begins with a value inside these containers. -/
def ValueRest (stack : List Frame) (bs : List UInt8) (v : Value) : Prop :=
  ∃ n : Node, ∃ r, Spaced n.chars bs r ∧ n.Fine (roomIn stack) ∧ Closes stack n.value r v

def ColonRest (stack : List Frame) (ms : Members) (key : String) (bs : List UInt8) (v : Value) :
    Prop :=
  ∃ r, Spaced [':'] bs r ∧ ValueRest (.member ms key :: stack) r v

def SealedEndRest (stack : List Frame) (text : String) (bs : List UInt8) (v : Value) : Prop :=
  ∃ r, Spaced ['}'] bs r ∧ Closes stack (.number text) r v

def SealedValueRest (stack : List Frame) (bs : List UInt8) (v : Value) : Prop :=
  ∃ l : Literal, ∃ n : Numeral, ∃ r, Spaced l.chars bs r ∧ l.Paired ∧ l.contentChars = n.chars ∧
    SealedEndRest stack (String.ofList (keptChars n.chars)) r v

def SealedColonRest (stack : List Frame) (bs : List UInt8) (v : Value) : Prop :=
  ∃ r, Spaced [':'] bs r ∧ SealedValueRest stack r v

def KeyedRest (stack : List Frame) (ms : Members) (isFirst : Bool) (key : String)
    (bs : List UInt8) (v : Value) : Prop :=
  if isFirst && key == numberKey then SealedColonRest stack bs v
  else ColonRest stack ms key bs v

def KeyRest (stack : List Frame) (ms : Members) (isFirst : Bool) (bs : List UInt8) (v : Value) :
    Prop :=
  ∃ l : Literal, ∃ r, Spaced l.chars bs r ∧ l.Paired ∧ KeyedRest stack ms isFirst l.content r v

def StringScan.Reads (scan : StringScan) (bs : List UInt8) (text : String) (r : List UInt8) :
    Prop :=
  ∃ ds b s ct, bs = ds ++ b :: r ∧ scan.feed ds = some s ∧ s.step b = .closed ct ∧
    StringScan.decode ct = .ok text

/-- The scan goes on to the end of the number, with this text and this rest. -/
def NumberScan.Reads (scan : NumberScan) (bs : List UInt8) (text : String) (r : List UInt8) :
    Prop :=
  ∃ ds m, bs = ds ++ r ∧ scan.feed ds = some m ∧ m.part.complete = true ∧ text = m.text

/-- What the text still is when it is read to an end from this state. -/
def State.Rest (s : State) (bs : List UInt8) (v : Value) : Prop :=
  match s.phase with
  | .value => ValueRest s.stack bs v
  | .firstItem =>
    (∃ r, Spaced [']'] bs r ∧ Closes s.stack (.array []) r v) ∨
      ValueRest (.array [] :: s.stack) bs v
  | .item items => ValueRest (.array items :: s.stack) bs v
  | .firstKey =>
    (∃ r, Spaced ['}'] bs r ∧ Closes s.stack (.object []) r v) ∨ KeyRest s.stack [] true bs v
  | .key ms => KeyRest s.stack ms false bs v
  | .keyText ms isFirst scan =>
    ∃ key r, scan.Reads bs key r ∧ KeyedRest s.stack ms isFirst key r v
  | .colon ms key => ColonRest s.stack ms key bs v
  | .literal rest u => ∃ r, bs = rest ++ r ∧ Closes s.stack u r v
  | .number scan => ∃ text r, scan.Reads bs text r ∧ Closes s.stack (.number text) r v
  | .text scan => ∃ text r, scan.Reads bs text r ∧ Closes s.stack (.string text) r v
  | .after u => Closes s.stack u bs v
  | .sealedColon => SealedColonRest s.stack bs v
  | .sealedValue => SealedValueRest s.stack bs v
  | .sealedText scan =>
    ∃ text number r, scan.Reads bs text r ∧ numberOfText text = .ok number ∧
      SealedEndRest s.stack number r v
  | .sealedEnd text => SealedEndRest s.stack text bs v
  | .sealedLiteral .. | .sealedNumber _ => False

theorem exists_blank (h : isBlank b = true) :
    ∃ c : Blank, String.utf8EncodeChar c.val = [b] := by
  simp only [isBlank, Bool.or_eq_true, decide_eq_true_eq] at h
  obtain ((rfl | rfl) | rfl) | rfl := h
  · exact ⟨⟨' ', .inl rfl⟩, rfl⟩
  · exact ⟨⟨'\n', .inr (.inr (.inl rfl))⟩, rfl⟩
  · exact ⟨⟨'\t', .inr (.inl rfl)⟩, rfl⟩
  · exact ⟨⟨'\r', .inr (.inr (.inr rfl))⟩, rfl⟩

theorem Spaced.here (cs : List Char) (r : List UInt8) : Spaced cs (Utf8.encode cs ++ r) r :=
  ⟨[], rfl⟩

theorem Spaced.blank (hb : isBlank b = true) (h : Spaced cs bs r) : Spaced cs (b :: bs) r := by
  obtain ⟨c, hc⟩ := exists_blank hb
  obtain ⟨before, rfl⟩ := h
  refine ⟨c :: before, ?_⟩
  rw [List.unattach_cons, List.cons_append, Utf8.encode_cons, hc]
  rfl

namespace Grammar

def ItemTail.space (c : Blank) : ItemTail → ItemTail
  | .close before => .close (c :: before)
  | .next beforeComma before v tail => .next (c :: beforeComma) before v tail

def EntryTail.space (c : Blank) : EntryTail → EntryTail
  | .close before => .close (c :: before)
  | .next beforeComma label v tail => .next (c :: beforeComma) label v tail

theorem ItemTail.chars_space (c : Blank) (tail : ItemTail) :
    (tail.space c).chars = c.val :: tail.chars := by
  cases tail with
  | close => simp [space, chars]
  | next => simp [space, chars]

theorem EntryTail.chars_space (c : Blank) (tail : EntryTail) :
    (tail.space c).chars = c.val :: tail.chars := by
  cases tail with
  | close => simp [space, chars]
  | next => simp [space, chars]

theorem ItemTail.values_space (c : Blank) (tail : ItemTail) :
    (tail.space c).values = tail.values := by
  cases tail with
  | close => rfl
  | next => simp only [space, values]

theorem EntryTail.members_space (c : Blank) (tail : EntryTail) (ms : Members) :
    (tail.space c).members ms = tail.members ms := by
  cases tail with
  | close => rfl
  | next => simp only [space, members]

theorem ItemTail.Fine.space (h : ItemTail.Fine tail k) (c : Blank) : (tail.space c).Fine k := by
  cases tail with
  | close before => exact ItemTail.fine_close _ k
  | next => exact ItemTail.fine_next.mpr (ItemTail.fine_next.mp h)

theorem EntryTail.Fine.space (h : EntryTail.Fine tail k) (c : Blank) :
    (tail.space c).Fine k := by
  cases tail with
  | close before => exact EntryTail.fine_close _ k
  | next => exact EntryTail.fine_next.mpr (EntryTail.fine_next.mp h)

end Grammar

theorem Closes.blank (hb : isBlank b = true) (h : Closes stack u bs v) :
    Closes stack u (b :: bs) v := by
  obtain ⟨c, hc⟩ := exists_blank hb
  match stack with
  | [] =>
    obtain ⟨after, rfl, rfl⟩ := h
    refine ⟨c :: after, ?_, rfl⟩
    rw [List.unattach_cons, Utf8.encode_cons, hc]
    rfl
  | .array items :: stack =>
    obtain ⟨tail, r, rfl, hf, hr⟩ := h
    refine ⟨tail.space c, r, ?_, hf.space c, ?_⟩
    · rw [ItemTail.chars_space, Utf8.encode_cons, hc]
      rfl
    · rwa [ItemTail.values_space]
  | .member ms key :: stack =>
    obtain ⟨tail, r, rfl, hf, hr⟩ := h
    refine ⟨tail.space c, r, ?_, hf.space c, ?_⟩
    · rw [EntryTail.chars_space, Utf8.encode_cons, hc]
      rfl
    · rwa [EntryTail.members_space]

theorem ValueRest.blank (hb : isBlank b = true) (h : ValueRest stack bs v) :
    ValueRest stack (b :: bs) v := by
  obtain ⟨n, r, hs, hr⟩ := h
  exact ⟨n, r, hs.blank hb, hr⟩

theorem KeyRest.blank (hb : isBlank b = true) (h : KeyRest stack ms isFirst bs v) :
    KeyRest stack ms isFirst (b :: bs) v := by
  obtain ⟨l, r, hs, hr⟩ := h
  exact ⟨l, r, hs.blank hb, hr⟩

theorem Closes.comma_item (h : ValueRest (.array (u :: items) :: stack) bs v) :
    Closes (.array items :: stack) u (0x2C :: bs) v := by
  obtain ⟨n, _, ⟨before, rfl⟩, hn, tail, r, rfl, hf, hr⟩ := h
  refine ⟨.next [] before n tail, r, ?_, ItemTail.fine_next.mpr ⟨hn, hf⟩, ?_⟩
  · simp only [ItemTail.chars, Utf8.encode_append, Utf8.encode_cons, List.append_assoc]
    rfl
  · rwa [List.reverse_cons, List.append_assoc] at hr

theorem Closes.bracket (h : Closes stack (.array (u :: items).reverse) bs v) :
    Closes (.array items :: stack) u (0x5D :: bs) v := by
  refine ⟨.close [], bs, rfl, ItemTail.fine_close [] _, ?_⟩
  rwa [List.reverse_cons] at h

theorem Closes.comma_member (h : KeyRest stack (ms.insert key u) false bs v) :
    Closes (.member ms key :: stack) u (0x2C :: bs) v := by
  obtain ⟨l, _, ⟨before, rfl⟩, hl, _, ⟨beforeColon, rfl⟩, n, _, ⟨afterColon, rfl⟩, hn, tail, r,
    rfl, hf, hr⟩ := h
  refine ⟨.next [] ⟨before, l, beforeColon, afterColon⟩ n tail, r, ?_,
    EntryTail.fine_next.mpr ⟨hl, hn, hf⟩, hr⟩
  simp only [EntryTail.chars, Label.chars, Utf8.encode_append, Utf8.encode_cons,
    Utf8.encode_nil,
    List.append_assoc]
  rfl

theorem Closes.brace (h : Closes stack (.object (ms.insert key u)) bs v) :
    Closes (.member ms key :: stack) u (0x7D :: bs) v :=
  ⟨.close [], bs, rfl, EntryTail.fine_close [] _, h⟩

theorem State.Follows.rest {stack : List Frame} (h : State.Follows stack u b t)
    (ht : t.Rest bs v) : Closes stack u (b :: bs) v := by
  cases h with
  | blank hb => exact Closes.blank hb ht
  | nextItem => exact Closes.comma_item ht
  | closeArray => exact Closes.bracket ht
  | nextMember => exact Closes.comma_member ht
  | closeObject => exact Closes.brace ht

theorem StringScan.reads_cons {scan scan' : StringScan} (h : scan.step b = .more scan')
    (hr : scan'.Reads bs text r) : scan.Reads (b :: bs) text r := by
  obtain ⟨ds, b', s, ct, rfl, hf, hs, hd⟩ := hr
  exact ⟨b :: ds, b', s, ct, rfl, by rw [StringScan.feed_cons h, hf], hs, hd⟩

theorem StringScan.reads_closed {scan : StringScan} (h : scan.step b = .closed ct)
    (hd : StringScan.decode ct = .ok text) (r : List UInt8) : scan.Reads (b :: r) text r :=
  ⟨[], b, scan, ct, rfl, rfl, h, hd⟩

theorem StringScan.exists_of_reads (h : StringScan.opened.Reads bs text r) :
    ∃ l : Literal, 0x22 :: bs = Utf8.encode l.chars ++ r ∧ l.Paired ∧ text = l.content := by
  obtain ⟨ds, b, s, ct, rfl, hf, hs, hd⟩ := h
  obtain ⟨l, hl, hp, ht⟩ := StringScan.exists_literal hf hs hd
  refine ⟨l, ?_, hp, ht⟩
  rw [Literal.chars, Utf8.encode_cons, ← hl, List.append_assoc, List.append_assoc]
  rfl

theorem NumberScan.reads_cons {scan scan' : NumberScan} (h : scan.step b = .more scan')
    (hr : scan'.Reads bs s r) : scan.Reads (b :: bs) s r := by
  obtain ⟨ds, m, rfl, hf, hc, ht⟩ := hr
  exact ⟨b :: ds, m, rfl, by rw [NumberScan.feed_cons h, hf], hc, ht⟩

theorem NumberScan.exists_of_reads (hs : NumberScan.start? b = some n) (h : n.Reads bs s r) :
    ∃ k : Numeral, b :: bs = Utf8.encode k.chars ++ r ∧
      s = String.ofList (keptChars k.chars) := by
  obtain ⟨ds, m, rfl, hf, hc, rfl⟩ := h
  obtain ⟨k, hk, ht⟩ := NumberScan.exists_numeral hs hf hc
  exact ⟨k, by rw [← hk]; rfl, ht⟩

theorem NumberScan.complete_of_ended {n : NumberScan} (h : n.step b = .ended) :
    n.part.complete = true := by
  obtain ⟨part, kept⟩ := n
  cases part with
  | zero => rfl
  | whole => rfl
  | fraction => rfl
  | exponent => rfl
  | minus =>
    simp only [NumberScan.step] at h
    split at h
    · cases h
    · split at h
      · cases h
      · cases h
  | point =>
    simp only [NumberScan.step] at h
    split at h
    · cases h
    · cases h
  | mark =>
    simp only [NumberScan.step] at h
    split at h
    · cases h
    · split at h
      · cases h
      · cases h
  | sign =>
    simp only [NumberScan.step] at h
    split at h
    · cases h
    · cases h

theorem keyed_rest : (State.keyed stack ms isFirst key).Rest bs v ↔
    KeyedRest stack ms isFirst key bs v := by
  rw [State.keyed, KeyedRest]
  split
  · exact Iff.rfl
  · exact Iff.rfl

theorem ValueRest.here (n : Node) (hn : n.Fine (roomIn stack)) (h : Closes stack n.value r v) :
    ValueRest stack (Utf8.encode n.chars ++ r) v :=
  ⟨n, r, Spaced.here n.chars r, hn, h⟩

theorem ValueRest.emptyArray (h : stack.length < maxDepth)
    (hr : ∃ r, Spaced [']'] bs r ∧ Closes stack (.array []) r v) :
    ValueRest stack (0x5B :: bs) v := by
  obtain ⟨r, ⟨inside, rfl⟩, hr⟩ := hr
  refine .here (.emptyArray inside) (Node.fine_emptyArray.mpr ?_) hr
  rw [roomIn_cons h (.array [])]
  exact Nat.succ_pos _

theorem ValueRest.array (h : stack.length < maxDepth)
    (hr : ValueRest (.array [] :: stack) bs v) :
    ValueRest stack (0x5B :: bs) v := by
  obtain ⟨n, _, ⟨before, rfl⟩, hn, tail, r, rfl, hf, hr⟩ := hr
  have hfine : (Node.array before n tail).Fine (roomIn stack) := by
    rw [roomIn_cons h (.array [])]
    exact Node.fine_array.mpr ⟨hn, hf⟩
  have hv := ValueRest.here (.array before n tail) hfine (by simpa [Node.value] using hr)
  simp only [Node.chars, Utf8.encode_cons, Utf8.encode_append, List.append_assoc] at hv ⊢
  exact hv

theorem ValueRest.emptyObject (h : stack.length < maxDepth)
    (hr : ∃ r, Spaced ['}'] bs r ∧ Closes stack (.object []) r v) :
    ValueRest stack (0x7B :: bs) v := by
  obtain ⟨r, ⟨inside, rfl⟩, hr⟩ := hr
  refine .here (.emptyObject inside) (Node.fine_emptyObject.mpr ?_) hr
  rw [roomIn_cons h (.array [])]
  exact Nat.succ_pos _

theorem ValueRest.sealed (h : stack.length < maxDepth) (hl : Literal.Paired l)
    (hk : l.content = numberKey) (hs : Spaced l.chars bs r) (hr : SealedColonRest stack r v) :
    ValueRest stack (0x7B :: bs) v := by
  obtain ⟨before, rfl⟩ := hs
  obtain ⟨_, ⟨beforeColon, rfl⟩, l', n, _, ⟨afterColon, rfl⟩, hp, hn, r, ⟨after, rfl⟩, hr⟩ := hr
  have hfine : (Node.object ⟨before, l, beforeColon, afterColon⟩ (.string l')
      (.close after)).Fine (roomIn stack) := by
    rw [roomIn_cons h (.array [])]
    exact Node.fine_object.mpr ⟨hl, fun _ => ⟨⟨l', n, rfl, hn⟩, after, rfl⟩,
      Node.fine_string hp _, EntryTail.fine_close after _⟩
  have hv := ValueRest.here _ hfine (by rwa [Node.value, if_pos hk, Node.sealedText, hn])
  simp only [Node.chars, EntryTail.chars, Label.chars, Utf8.encode_cons, Utf8.encode_append,
    List.append_assoc] at hv ⊢
  exact hv

theorem ValueRest.object (h : stack.length < maxDepth) (hl : Literal.Paired l)
    (hk : l.content ≠ numberKey) (hs : Spaced l.chars bs r)
    (hr : ColonRest stack [] l.content r v) : ValueRest stack (0x7B :: bs) v := by
  obtain ⟨before, rfl⟩ := hs
  obtain ⟨_, ⟨beforeColon, rfl⟩, n, _, ⟨afterColon, rfl⟩, hn, tail, r, rfl, hf, hr⟩ := hr
  have hfine : (Node.object ⟨before, l, beforeColon, afterColon⟩ n tail).Fine
    (roomIn stack) := by
    rw [roomIn_cons h (.member [] l.content)]
    exact Node.fine_object.mpr ⟨hl, fun h => absurd h hk, hn, hf⟩
  have hv := ValueRest.here _ hfine (by rwa [Node.value, if_neg hk])
  simp only [Node.chars, Label.chars, Utf8.encode_cons, Utf8.encode_append,
    List.append_assoc] at hv ⊢
  exact hv

theorem ValueRest.keyed (h : stack.length < maxDepth) (hr : KeyRest stack [] true bs v) :
    ValueRest stack (0x7B :: bs) v := by
  obtain ⟨l, r, hs, hl, hr⟩ := hr
  rw [KeyedRest] at hr
  split at hr
  · next hk => exact .sealed h hl (by simpa using hk) hs hr
  · next hk => exact .object h hl (by simpa using hk) hs hr

theorem State.Begins.rest {stack : List Frame} (h : State.Begins stack b t)
    (ht : t.Rest bs v) : ValueRest stack (b :: bs) v := by
  cases h with
  | text =>
    obtain ⟨text, r, hs, hr⟩ := ht
    obtain ⟨l, hl, hp, rfl⟩ := StringScan.exists_of_reads hs
    have hv := ValueRest.here (.string l) (Node.fine_string hp _) hr
    rw [Node.chars, ← hl] at hv
    exact hv
  | array hlt =>
    obtain ht | ht := ht
    · exact .emptyArray hlt ht
    · exact .array hlt ht
  | object hlt =>
    obtain ht | ht := ht
    · exact .emptyObject hlt ht
    · exact .keyed hlt ht
  | nullWord =>
    obtain ⟨r, rfl, hr⟩ := ht
    exact .here .null (Node.fine_null _) hr
  | trueWord =>
    obtain ⟨r, rfl, hr⟩ := ht
    exact .here (.bool true) (Node.fine_bool true _) hr
  | falseWord =>
    obtain ⟨r, rfl, hr⟩ := ht
    exact .here (.bool false) (Node.fine_bool false _) hr
  | number hs =>
    obtain ⟨text, r, hn, hr⟩ := ht
    obtain ⟨k, hk, rfl⟩ := NumberScan.exists_of_reads hs hn
    rw [hk]
    exact .here (.number k) (Node.fine_number k _) hr

theorem KeyRest.of_keyText
    (h : ∃ key r, StringScan.opened.Reads bs key r ∧ KeyedRest stack ms isFirst key r v) :
    KeyRest stack ms isFirst (0x22 :: bs) v := by
  obtain ⟨key, r, hs, hr⟩ := h
  obtain ⟨l, hl, hp, rfl⟩ := StringScan.exists_of_reads hs
  exact ⟨l, r, ⟨[], hl⟩, hp, hr⟩

theorem SealedValueRest.of_sealedText
    (h : ∃ text number r, StringScan.opened.Reads bs text r ∧ numberOfText text = .ok number ∧
      SealedEndRest stack number r v) : SealedValueRest stack (0x22 :: bs) v := by
  obtain ⟨text, number, r, hs, hn, hr⟩ := h
  obtain ⟨l, hl, hp, rfl⟩ := StringScan.exists_of_reads hs
  obtain ⟨n, hc, rfl⟩ := numberOfText_eq_ok_iff.mp hn
  exact ⟨l, n, r, ⟨[], hl⟩, hp, by rwa [Literal.content, String.toList_ofList] at hc, hr⟩

theorem State.Rest.blank {s : State} (hs : s.phase.skipsBlanks = true) (hb : isBlank b = true)
    (h : s.Rest bs v) : s.Rest (b :: bs) v := by
  obtain ⟨stack, phase⟩ := s
  cases phase with
  | value => exact ValueRest.blank hb h
  | firstItem =>
    obtain ⟨r, hs, hr⟩ | h := h
    · exact .inl ⟨r, hs.blank hb, hr⟩
    · exact .inr (h.blank hb)
  | item items => exact ValueRest.blank hb h
  | firstKey =>
    obtain ⟨r, hs, hr⟩ | h := h
    · exact .inl ⟨r, hs.blank hb, hr⟩
    · exact .inr (h.blank hb)
  | key ms => exact KeyRest.blank hb h
  | colon ms key =>
    obtain ⟨r, hs, hr⟩ := h
    exact ⟨r, hs.blank hb, hr⟩
  | after u => exact Closes.blank hb h
  | sealedColon =>
    obtain ⟨r, hs, hr⟩ := h
    exact ⟨r, hs.blank hb, hr⟩
  | sealedValue =>
    obtain ⟨l, n, r, hs, hr⟩ := h
    exact ⟨l, n, r, hs.blank hb, hr⟩
  | sealedEnd text =>
    obtain ⟨r, hs, hr⟩ := h
    exact ⟨r, hs.blank hb, hr⟩
  | _ => exact absurd hs Bool.false_ne_true

/-- An octet in front of what may be read from the state it leads to. -/
theorem step_rest {s t : State} (h : s.step b = .ok t) (ht : t.Rest bs v) :
    s.Rest (b :: bs) v := by
  cases State.steps_of_step h with
  | blank hs hb => exact ht.blank hs hb
  | value hb => exact hb.rest ht
  | firstItem hb => exact .inr (hb.rest ht)
  | item hb => exact hb.rest ht
  | emptyArray => exact .inl ⟨bs, Spaced.here [']'] bs, ht⟩
  | firstKey => exact .inr (KeyRest.of_keyText ht)
  | key => exact KeyRest.of_keyText ht
  | emptyObject => exact .inl ⟨bs, Spaced.here ['}'] bs, ht⟩
  | keyText hb =>
    obtain ⟨key, r, hr, hk⟩ := ht
    exact ⟨key, r, StringScan.reads_cons hb hr, hk⟩
  | closeKey hb hd => exact ⟨_, bs, StringScan.reads_closed hb hd bs, keyed_rest.mp ht⟩
  | colon => exact ⟨bs, Spaced.here [':'] bs, ht⟩
  | literal _ =>
    obtain ⟨r, rfl, hr⟩ := ht
    exact ⟨r, rfl, hr⟩
  | closeLiteral => exact ⟨bs, rfl, ht⟩
  | afterLiteral hf => exact ⟨b :: bs, rfl, hf.rest ht⟩
  | number hb =>
    obtain ⟨text, r, hn, hr⟩ := ht
    exact ⟨text, r, NumberScan.reads_cons hb hn, hr⟩
  | afterNumber hb hf =>
    have hc := NumberScan.complete_of_ended hb
    exact ⟨_, b :: bs, ⟨[], _, rfl, rfl, hc, rfl⟩, hf.rest ht⟩
  | text hb =>
    obtain ⟨text, r, hr, hc⟩ := ht
    exact ⟨text, r, StringScan.reads_cons hb hr, hc⟩
  | closeText hb hd => exact ⟨_, bs, StringScan.reads_closed hb hd bs, ht⟩
  | after hf => exact hf.rest ht
  | sealedColon => exact ⟨bs, Spaced.here [':'] bs, ht⟩
  | sealedValue => exact SealedValueRest.of_sealedText ht
  | sealedText hb =>
    obtain ⟨text, number, r, hr, hn, he⟩ := ht
    exact ⟨text, number, r, StringScan.reads_cons hb hr, hn, he⟩
  | closeSealedText hb hd hn =>
    exact ⟨_, _, bs, StringScan.reads_closed hb hd bs, hn, ht⟩
  | sealedEnd => exact ⟨bs, Spaced.here ['}'] bs, ht⟩
  -- a value of another kind in the place of a number's text leads to no end
  | _ => exact ht.elim

theorem close_rest (h : State.close stack u = .ok v) : Closes stack u [] v := by
  match stack with
  | [] => exact ⟨[], rfl, Except.ok.inj h⟩
  | .array _ :: _ => cases h
  | .member .. :: _ => cases h

theorem finish_rest {s : State} (h : s.finish = .ok v) : s.Rest [] v := by
  obtain ⟨stack, phase⟩ := s
  cases phase with
  | number scan =>
    simp only [State.finish] at h
    split at h
    · next hc => exact ⟨scan.text, [], ⟨[], scan, rfl, rfl, hc, rfl⟩, close_rest h⟩
    · cases h
  | after u => exact close_rest h
  | sealedNumber scan =>
    simp only [State.finish] at h
    split at h
    · cases h
    · cases h
  | _ => cases h

/-- What is read to an end from a state is as the state describes it. -/
theorem State.Accepts.rest {s : State} (h : s.Accepts bs v) : s.Rest bs v := by
  induction bs generalizing s with
  | nil => exact finish_rest h
  | cons b bs ih =>
    obtain ⟨t, ht, h⟩ := h
    exact step_rest ht (ih h)

theorem exists_text_of_read (h : read bs = .ok v) :
    ∃ t : Text, bs = Utf8.encode t.chars ∧ t.node.Fine maxDepth ∧ t.value = v := by
  obtain ⟨n, _, ⟨before, rfl⟩, hn, after, rfl, rfl⟩ := (read_eq_ok_iff.mp h).rest
  refine ⟨⟨before, n, after⟩, ?_, hn, rfl⟩
  rw [Text.chars, ← List.append_assoc, Utf8.encode_append _ after.unattach]

end SchemaSnapshot.Json
