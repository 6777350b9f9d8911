import SchemaSnapshot.Proofs.Json.Steps
import SchemaSnapshot.Proofs.Json.Truncation

namespace SchemaSnapshot.Json
open Grammar

inductive Bracket where
  | array
  | object

def Frame.bracket : Frame → Bracket
  | .array _ => .array
  | .member .. => .object

/-- The text leads up to a value inside containers that are still open, the innermost first. -/
inductive Before : List Bracket → List UInt8 → Prop
  | top (before : List Blank) : Before [] (Utf8.encode before.unattach)
  | array (h : Before outer bs) (before : List Blank) :
      Before (.array :: outer) (bs ++ Utf8.encode ('[' :: before.unattach))
  | item (h : Before (.array :: outer) bs) (n : Node) (beforeComma before : List Blank) :
      Before (.array :: outer)
        (bs ++ Utf8.encode (n.chars ++ (beforeComma.unattach ++ (',' :: before.unattach))))
  | object (h : Before outer bs) (label : Label) :
      Before (.object :: outer) (bs ++ Utf8.encode ('{' :: label.chars))
  | member (h : Before (.object :: outer) bs) (n : Node) (beforeComma : List Blank)
      (label : Label) :
      Before (.object :: outer)
        (bs ++ Utf8.encode (n.chars ++ (beforeComma.unattach ++ (',' :: label.chars))))

/-- The text leads up to a key: the first one of its object, or one after a comma. -/
inductive BeforeKey : Bool → List Bracket → List UInt8 → Prop
  | first (h : Before outer bs) (before : List Blank) :
      BeforeKey true outer (bs ++ Utf8.encode ('{' :: before.unattach))
  | next (h : Before (.object :: outer) bs) (n : Node) (beforeComma before : List Blank) :
      BeforeKey false outer
        (bs ++ Utf8.encode (n.chars ++ (beforeComma.unattach ++ (',' :: before.unattach))))

/-- The text leads up to a value and over it, and over blanks that follow. -/
def AfterValue (outer : List Bracket) (bs : List UInt8) : Prop :=
  ∃ p, ∃ n : Node, ∃ after : List Blank,
    Before outer p ∧ bs = p ++ Utf8.encode (n.chars ++ after.unattach)

def AfterKey (isFirst : Bool) (outer : List Bracket) (key : String) (bs : List UInt8) : Prop :=
  ∃ p, ∃ l : Literal, ∃ after : List Blank,
    BeforeKey isFirst outer p ∧ l.content = key ∧
      bs = p ++ Utf8.encode (l.chars ++ after.unattach)

/-- An object of the text begins with this key, whether it is finished or ends anywhere after
the colon. What follows need not be JSON. -/
def BeginsObject (key : String) (bs : List UInt8) : Prop :=
  ∃ outer p, ∃ label : Label, ∃ r, Before outer p ∧ label.key.content = key ∧
    bs = p ++ Utf8.encode ('{' :: label.chars) ++ r

theorem BeginsObject.append (h : BeginsObject key bs) (r : List UInt8) :
    BeginsObject key (bs ++ r) := by
  obtain ⟨outer, p, label, s, hp, hk, rfl⟩ := h
  exact ⟨outer, p, label, s ++ r, hp, hk, List.append_assoc _ s r⟩

theorem BeginsObject.colon_mem (h : BeginsObject key bs) : 0x3A ∈ bs := by
  obtain ⟨outer, p, label, r, -, -, rfl⟩ := h
  have hc : String.utf8EncodeChar ':' = [0x3A] := rfl
  simp [Label.chars, Utf8.encode_cons, Utf8.encode_append, hc]

/-- One more blank at the end of blanks. -/
theorem exists_blank_concat (h : isBlank b = true) :
    ∃ c : Blank, ∀ before : List Blank,
      Utf8.encode (before ++ [c]).unattach = Utf8.encode before.unattach ++ [b] := by
  obtain ⟨c, hc⟩ := exists_blank h
  refine ⟨c, fun before => ?_⟩
  rw [List.unattach_append, Utf8.encode_append, ← hc]
  exact congrArg (_ ++ ·) (List.append_nil _)

theorem Before.blank (h : Before outer bs) (hb : isBlank b = true) :
    Before outer (bs ++ [b]) := by
  obtain ⟨c, hc⟩ := exists_blank_concat hb
  cases h with
  | top before =>
    rw [← hc]
    exact .top (before ++ [c])
  | array h before =>
    have ha := Before.array h (before ++ [c])
    simpa only [Utf8.encode_cons, hc, List.append_assoc] using ha
  | item h n beforeComma before =>
    have hi := Before.item h n beforeComma (before ++ [c])
    simpa only [Utf8.encode_cons, Utf8.encode_append, hc, List.append_assoc] using hi
  | object h label =>
    have ho := Before.object h { label with afterColon := label.afterColon ++ [c] }
    simpa only [Label.chars, Utf8.encode_cons, Utf8.encode_append, hc,
      List.append_assoc] using ho
  | member h n beforeComma label =>
    have hm := Before.member h n beforeComma { label with afterColon :=
      label.afterColon ++ [c] }
    simpa only [Label.chars, Utf8.encode_cons, Utf8.encode_append, hc,
      List.append_assoc] using hm

theorem BeforeKey.blank (h : BeforeKey isFirst outer bs) (hb : isBlank b = true) :
    BeforeKey isFirst outer (bs ++ [b]) := by
  obtain ⟨c, hc⟩ := exists_blank_concat hb
  cases h with
  | first h before =>
    have hf := BeforeKey.first h (before ++ [c])
    simpa only [Utf8.encode_cons, hc, List.append_assoc] using hf
  | next h n beforeComma before =>
    have hn := BeforeKey.next h n beforeComma (before ++ [c])
    simpa only [Utf8.encode_cons, Utf8.encode_append, hc, List.append_assoc] using hn

theorem AfterValue.blank (h : AfterValue outer bs) (hb : isBlank b = true) :
    AfterValue outer (bs ++ [b]) := by
  obtain ⟨c, hc⟩ := exists_blank_concat hb
  obtain ⟨p, n, after, hp, rfl⟩ := h
  refine ⟨p, n, after ++ [c], hp, ?_⟩
  rw [Utf8.encode_append, Utf8.encode_append, hc, List.append_assoc, List.append_assoc]

theorem AfterKey.blank (h : AfterKey isFirst outer key bs) (hb : isBlank b = true) :
    AfterKey isFirst outer key (bs ++ [b]) := by
  obtain ⟨c, hc⟩ := exists_blank_concat hb
  obtain ⟨p, l, after, hp, hk, rfl⟩ := h
  refine ⟨p, l, after ++ [c], hp, hk, ?_⟩
  rw [Utf8.encode_append, Utf8.encode_append, hc, List.append_assoc, List.append_assoc]

theorem Before.close_array (h : Before (.array :: outer) bs) (n : Node) (tail : ItemTail) :
    ∃ p, ∃ m : Node, Before outer p ∧
      bs ++ Utf8.encode (n.chars ++ tail.chars) = p ++ Utf8.encode m.chars := by
  generalize hs : Bracket.array :: outer = stack at h
  -- the items before go into the tail one by one, the last first
  induction h generalizing n tail with
  | top => cases hs
  | object => cases hs
  | member => cases hs
  | array h before _ =>
    cases hs
    refine ⟨_, .array before n tail, h, ?_⟩
    simp only [Node.chars, Utf8.encode_cons, Utf8.encode_append, List.append_assoc]
  | item h m beforeComma before ih =>
    obtain ⟨p, m', hp, he⟩ := ih m (.next beforeComma before n tail) hs
    refine ⟨p, m', hp, ?_⟩
    rw [← he]
    simp only [ItemTail.chars, Utf8.encode_cons, Utf8.encode_append, List.append_assoc]

theorem Before.close_object (h : Before (.object :: outer) bs) (n : Node) (tail : EntryTail) :
    ∃ p, ∃ m : Node, Before outer p ∧
      bs ++ Utf8.encode (n.chars ++ tail.chars) = p ++ Utf8.encode m.chars := by
  generalize hs : Bracket.object :: outer = stack at h
  induction h generalizing n tail with
  | top => cases hs
  | array => cases hs
  | item => cases hs
  | object h label _ =>
    cases hs
    refine ⟨_, .object label n tail, h, ?_⟩
    simp only [Node.chars, Utf8.encode_cons, Utf8.encode_append, List.append_assoc]
  | member h m beforeComma label ih =>
    obtain ⟨p, m', hp, he⟩ := ih m (.next beforeComma label n tail) hs
    refine ⟨p, m', hp, ?_⟩
    rw [← he]
    simp only [EntryTail.chars, Utf8.encode_cons, Utf8.encode_append, List.append_assoc]

theorem AfterValue.of_node (h : Before outer p) (n : Node)
    (he : bs = p ++ Utf8.encode n.chars) :
    AfterValue outer bs :=
  ⟨p, n, [], h, by rw [he, List.unattach_nil, List.append_nil]⟩

theorem AfterValue.comma_item (h : AfterValue (.array :: outer) bs) :
    Before (.array :: outer) (bs ++ [0x2C]) := by
  obtain ⟨p, n, after, hp, rfl⟩ := h
  have hi := Before.item hp n after []
  simp only [Utf8.encode_append, List.append_assoc] at hi ⊢
  exact hi

theorem AfterValue.bracket (h : AfterValue (.array :: outer) bs) :
    AfterValue outer (bs ++ [0x5D]) := by
  obtain ⟨p, n, after, hp, rfl⟩ := h
  obtain ⟨q, m, hq, he⟩ := hp.close_array n (.close after)
  apply AfterValue.of_node hq m
  rw [← he, ItemTail.chars]
  simp only [Utf8.encode_append, List.append_assoc]
  rfl

theorem AfterValue.comma_member (h : AfterValue (.object :: outer) bs) :
    BeforeKey false outer (bs ++ [0x2C]) := by
  obtain ⟨p, n, after, hp, rfl⟩ := h
  have hn := BeforeKey.next hp n after []
  simp only [Utf8.encode_append, List.append_assoc] at hn ⊢
  exact hn

theorem AfterValue.brace (h : AfterValue (.object :: outer) bs) :
    AfterValue outer (bs ++ [0x7D]) := by
  obtain ⟨p, n, after, hp, rfl⟩ := h
  obtain ⟨q, m, hq, he⟩ := hp.close_object n (.close after)
  apply AfterValue.of_node hq m
  rw [← he, EntryTail.chars]
  simp only [Utf8.encode_append, List.append_assoc]
  rfl

theorem AfterKey.colon (h : AfterKey isFirst outer key bs) :
    Before (.object :: outer) (bs ++ [0x3A]) := by
  obtain ⟨p, l, after, hp, _, rfl⟩ := h
  cases hp with
  | first hp before =>
    have ho := Before.object hp ⟨before, l, after, []⟩
    simp only [Label.chars, Utf8.encode_cons, Utf8.encode_append, List.append_assoc] at ho ⊢
    exact ho
  | next hp n beforeComma before =>
    have hm := Before.member hp n beforeComma ⟨before, l, after, []⟩
    simp only [Label.chars, Utf8.encode_cons, Utf8.encode_append, List.append_assoc] at hm ⊢
    exact hm

theorem AfterKey.beginsObject (h : AfterKey true outer key bs) :
    BeginsObject key (bs ++ [0x3A]) := by
  obtain ⟨p, l, after, hp, hk, rfl⟩ := h
  cases hp with
  | first hp before =>
    refine ⟨outer, _, ⟨before, l, after, []⟩, [], hp, hk, ?_⟩
    simp only [Label.chars, Utf8.encode_cons, Utf8.encode_append, List.append_assoc]
    rfl

/-- What the reader has read when it is in a state. In the phases of an object that stands for a
number, whose first key is known by then, nothing is said. -/
def State.Begun (s : State) (bs : List UInt8) : Prop :=
  let outer := s.stack.map Frame.bracket
  match s.phase with
  | .value => Before outer bs
  | .firstItem => ∃ p, ∃ inside : List Blank,
      Before outer p ∧ bs = p ++ Utf8.encode ('[' :: inside.unattach)
  | .item _ => Before (.array :: outer) bs
  | .firstKey => BeforeKey true outer bs
  | .key _ => BeforeKey false outer bs
  | .keyText _ isFirst scan => ∃ p r,
      BeforeKey isFirst outer p ∧ StringScan.opened.feed r = some scan ∧ bs = p ++ 0x22 :: r
  | .colon _ key => ∃ isFirst, AfterKey isFirst outer key bs
  | .literal rest _ => ∃ p, ∃ n : Node, Before outer p ∧ bs ++ rest = p ++ Utf8.encode n.chars
  | .number scan => ∃ p b n r, Before outer p ∧ NumberScan.start? b = some n ∧
      n.feed r = some scan ∧ bs = p ++ b :: r
  | .text scan => ∃ p r,
      Before outer p ∧ StringScan.opened.feed r = some scan ∧ bs = p ++ 0x22 :: r
  | .after _ => AfterValue outer bs
  | .sealedColon => AfterKey true outer numberKey bs
  | _ => False

theorem begun_start : start.Begun [] :=
  .top []

theorem begun_of_begins (hb : State.Begins stack b t)
    (h : Before (stack.map Frame.bracket) bs) :
    t.Begun (bs ++ [b]) := by
  cases hb with
  | text => exact ⟨bs, [], h, rfl, rfl⟩
  | array _ => exact ⟨bs, [], h, rfl⟩
  | object _ => exact .first h []
  | nullWord => exact ⟨bs, .null, h, List.append_assoc bs _ _⟩
  | trueWord => exact ⟨bs, .bool true, h, List.append_assoc bs _ _⟩
  | falseWord => exact ⟨bs, .bool false, h, List.append_assoc bs _ _⟩
  | number hn => exact ⟨bs, b, _, [], h, hn, rfl, rfl⟩

theorem begun_of_follows (hf : State.Follows stack u b t)
    (h : AfterValue (stack.map Frame.bracket) bs) : t.Begun (bs ++ [b]) := by
  cases hf with
  | blank hb => exact h.blank hb
  | nextItem => exact h.comma_item
  | closeArray => exact h.bracket
  | nextMember => exact h.comma_member
  | closeObject => exact h.brace

theorem State.Begun.blank {s : State} (hs : s.Begun bs) (hp : s.phase.skipsBlanks = true)
    (hb : isBlank b = true) : s.Begun (bs ++ [b]) := by
  obtain ⟨stack, phase⟩ := s
  cases phase with
  | value => exact Before.blank hs hb
  | firstItem =>
    obtain ⟨c, hc⟩ := exists_blank_concat hb
    obtain ⟨p, inside, hp, rfl⟩ := hs
    refine ⟨p, inside ++ [c], hp, ?_⟩
    rw [Utf8.encode_cons, Utf8.encode_cons, hc, List.append_assoc, List.append_assoc]
  | item items => exact Before.blank hs hb
  | firstKey => exact BeforeKey.blank hs hb
  | key ms => exact BeforeKey.blank hs hb
  | colon ms key =>
    obtain ⟨isFirst, hk⟩ := hs
    exact ⟨isFirst, hk.blank hb⟩
  | after u => exact AfterValue.blank hs hb
  | sealedColon => exact AfterKey.blank hs hb
  | sealedValue => exact hs.elim
  | sealedEnd text => exact hs.elim
  | _ => exact absurd hp Bool.false_ne_true

theorem feed_concat {scan : StringScan} (hf : StringScan.opened.feed r = some scan)
    (hb : scan.step b = .more scan') : StringScan.opened.feed (r ++ [b]) = some scan' := by
  rw [StringScan.feed_append hf, StringScan.feed_cons hb]
  rfl

theorem exists_literal_concat {scan : StringScan} (hf : StringScan.opened.feed r = some scan)
    (hb : scan.step b = .closed ct) (hd : StringScan.decode ct = .ok text) (p : List UInt8) :
    ∃ l : Literal, l.content = text ∧ p ++ 0x22 :: r ++ [b] = p ++ Utf8.encode l.chars := by
  obtain ⟨l, hl, _, ht⟩ := StringScan.exists_literal hf hb hd
  refine ⟨l, ht.symm, ?_⟩
  rw [Literal.chars, Utf8.encode_cons, ← hl, List.append_assoc]
  rfl

theorem begun_keyed {stack : List Frame} (h : AfterKey isFirst (stack.map Frame.bracket) key bs)
    (ms : Members) : (State.keyed stack ms isFirst key).Begun bs := by
  rw [State.keyed]
  split
  · next hc =>
    obtain ⟨rfl, rfl⟩ : isFirst = true ∧ key = numberKey := by simpa using hc
    exact h
  · exact ⟨isFirst, h⟩

theorem State.Begun.step {s t : State} (hs : s.Begun bs) (h : s.step b = .ok t) :
    t.Begun (bs ++ [b]) ∨ BeginsObject numberKey (bs ++ [b]) := by
  cases steps_of_step h with
  | blank hp hb => exact .inl (hs.blank hp hb)
  | value hb => exact .inl (begun_of_begins hb hs)
  | firstItem hb =>
    obtain ⟨p, inside, hp, rfl⟩ := hs
    exact .inl (begun_of_begins hb (.array hp inside))
  | item hb => exact .inl (begun_of_begins hb hs)
  | emptyArray =>
    obtain ⟨p, inside, hp, rfl⟩ := hs
    refine .inl (AfterValue.of_node hp (.emptyArray inside) ?_)
    simp only [Node.chars, Utf8.encode_cons, Utf8.encode_append, List.append_assoc]
    rfl
  | firstKey => exact .inl ⟨bs, [], hs, rfl, rfl⟩
  | key => exact .inl ⟨bs, [], hs, rfl, rfl⟩
  | emptyObject =>
    cases hs with
    | first hp inside =>
      refine .inl (AfterValue.of_node hp (.emptyObject inside) ?_)
      simp only [Node.chars, Utf8.encode_cons, Utf8.encode_append, List.append_assoc]
      rfl
  | keyText hb =>
    obtain ⟨p, r, hp, hf, rfl⟩ := hs
    exact .inl ⟨p, r ++ [b], hp, feed_concat hf hb, List.append_assoc p _ [b]⟩
  | closeKey hb hd =>
    obtain ⟨p, r, hp, hf, rfl⟩ := hs
    obtain ⟨l, hl, he⟩ := exists_literal_concat hf hb hd p
    apply Or.inl
    apply begun_keyed
    exact ⟨p, l, [], hp, hl, by rw [he, List.unattach_nil, List.append_nil]⟩
  | colon =>
    obtain ⟨isFirst, hk⟩ := hs
    exact .inl hk.colon
  | literal _ =>
    obtain ⟨p, n, hp, he⟩ := hs
    rw [List.append_cons] at he
    exact .inl ⟨p, n, hp, he⟩
  | closeLiteral =>
    obtain ⟨p, n, hp, he⟩ := hs
    exact .inl (.of_node hp n he)
  | afterLiteral hf =>
    obtain ⟨p, n, hp, he⟩ := hs
    rw [List.append_nil] at he
    exact .inl (begun_of_follows hf (.of_node hp n he))
  | number hb =>
    obtain ⟨p, c, n, r, hp, hn, hf, rfl⟩ := hs
    refine .inl ⟨p, c, n, r ++ [b], hp, hn, ?_, List.append_assoc p _ [b]⟩
    rw [NumberScan.feed_append hf, NumberScan.feed_cons hb]
    rfl
  | afterNumber hb ht =>
    obtain ⟨p, c, n, r, hp, hn, hf, rfl⟩ := hs
    obtain ⟨k, hk, _⟩ := NumberScan.exists_numeral hn hf (NumberScan.complete_of_ended hb)
    exact .inl (begun_of_follows ht (.of_node hp (.number k) (congrArg (p ++ ·) hk)))
  | text hb =>
    obtain ⟨p, r, hp, hf, rfl⟩ := hs
    exact .inl ⟨p, r ++ [b], hp, feed_concat hf hb, List.append_assoc p _ [b]⟩
  | closeText hb hd =>
    obtain ⟨p, r, hp, hf, rfl⟩ := hs
    obtain ⟨l, _, he⟩ := exists_literal_concat hf hb hd p
    exact .inl (.of_node hp (.string l) he)
  | after hf => exact .inl (begun_of_follows hf hs)
  | sealedColon => exact .inr (AfterKey.beginsObject hs)
  | _ => exact hs.elim

/-- The reader is where the grammar says it is, unless an object that stands for a number has
begun. That object stays in the text, so the first one settles the rest of the run. -/
theorem State.Reaches.begun {s t : State} (h : s.Reaches q t) (hs : s.Begun p) :
    t.Begun (p ++ q) ∨ BeginsObject numberKey (p ++ q) := by
  induction q generalizing s p with
  | nil =>
    obtain rfl := h
    exact .inl (by rwa [List.append_nil])
  | cons b q ih =>
    obtain ⟨u, hu, h⟩ := h
    rw [List.append_cons]
    obtain hs | hk := hs.step hu
    · exact ih h hs
    · exact .inr (hk.append q)

end SchemaSnapshot.Json
