import SchemaSnapshot.Proofs.Json.Grammar

namespace SchemaSnapshot.Json
open Grammar

/-- From this state the text is read to its end, as this value. -/
def State.Accepts (s : State) : List UInt8 → Value → Prop
  | [], v => s.finish = .ok v
  | b :: bs, v => ∃ t, s.step b = .ok t ∧ t.Accepts bs v

def Phase.skipsBlanks : Phase → Bool
  | .value | .firstItem | .item _ | .firstKey | .key _ | .colon .. | .after _ => true
  | .sealedColon | .sealedValue | .sealedEnd _ => true
  | _ => false

theorem step_blank {s : State} (hs : s.phase.skipsBlanks = true) (hb : isBlank b = true) :
    s.step b = .ok s := by
  obtain ⟨stack, phase⟩ := s
  cases phase with
  | value => exact if_pos hb
  | firstItem => exact if_pos hb
  | item items => exact if_pos hb
  | firstKey => exact if_pos hb
  | key ms => exact if_pos hb
  | colon ms key => exact if_pos hb
  | after u => exact if_pos hb
  | sealedColon => exact if_pos hb
  | sealedValue => exact if_pos hb
  | sealedEnd text => exact if_pos hb
  | _ => exact absurd hs Bool.false_ne_true

theorem run_eq_ok_iff {s : State} : run s taken bs = .ok v ↔ s.Accepts bs v := by
  induction bs generalizing s taken with
  | nil =>
    rw [run, State.Accepts]
    cases s.finish with
    | ok w =>
      constructor
      · intro h
        exact congrArg Except.ok (Except.ok.inj h)
      · intro h
        exact congrArg Except.ok (Except.ok.inj h)
    | error cause =>
      constructor
      · intro h
        cases h
      · intro h
        cases h
  | cons b bs ih =>
    rw [run, State.Accepts]
    cases s.step b with
    | ok t =>
      constructor
      · intro h
        exact ⟨t, rfl, ih.mp h⟩
      · rintro ⟨t', ht, h⟩
        obtain rfl := Except.ok.inj ht
        exact ih.mpr h
    | error fault => simp

theorem read_eq_ok_iff : read bs = .ok v ↔ start.Accepts bs v :=
  run_eq_ok_iff

namespace Grammar

/-- A derivation that the reader admits where so many arrays and objects may still be opened. -/
def Node.Fine (n : Node) (room : Nat) : Prop :=
  n.PairsSurrogates ∧ n.SealsNumbers ∧ n.depth ≤ room

def ItemTail.Fine (tail : ItemTail) (room : Nat) : Prop :=
  tail.PairsSurrogates ∧ tail.SealsNumbers ∧ tail.depth ≤ room

def EntryTail.Fine (tail : EntryTail) (room : Nat) : Prop :=
  tail.PairsSurrogates ∧ tail.SealsNumbers ∧ tail.depth ≤ room

variable {v : Node} {items : ItemTail} {entries : EntryTail} {label : Label}

theorem Node.fine_array :
    (Node.array before v items).Fine (room + 1) ↔ v.Fine room ∧ items.Fine room := by
  simp only [Node.Fine, ItemTail.Fine, Node.PairsSurrogates, Node.SealsNumbers, Node.depth,
    Nat.add_le_add_iff_right, Nat.max_le]
  constructor
  · rintro ⟨⟨hp, hp'⟩, ⟨hs, hs'⟩, hd, hd'⟩
    exact ⟨⟨hp, hs, hd⟩, hp', hs', hd'⟩
  · rintro ⟨⟨hp, hs, hd⟩, hp', hs', hd'⟩
    exact ⟨⟨hp, hp'⟩, ⟨hs, hs'⟩, hd, hd'⟩

theorem Node.fine_object :
    (Node.object label v entries).Fine (room + 1) ↔
      label.key.Paired ∧ (label.key.content = numberKey → v.IsNumberText ∧ entries.IsClose) ∧
        v.Fine room ∧ entries.Fine room := by
  simp only [Node.Fine, EntryTail.Fine, Node.PairsSurrogates, Node.SealsNumbers, Node.depth,
    Nat.add_le_add_iff_right, Nat.max_le]
  constructor
  · rintro ⟨⟨hl, hp, hp'⟩, ⟨hk, hs, hs'⟩, hd, hd'⟩
    exact ⟨hl, hk, ⟨hp, hs, hd⟩, hp', hs', hd'⟩
  · rintro ⟨hl, hk, ⟨hp, hs, hd⟩, hp', hs', hd'⟩
    exact ⟨⟨hl, hp, hp'⟩, ⟨hk, hs, hs'⟩, hd, hd'⟩

theorem ItemTail.fine_next :
    (ItemTail.next beforeComma before v items).Fine room ↔ v.Fine room ∧ items.Fine room := by
  simp only [Node.Fine, ItemTail.Fine, ItemTail.PairsSurrogates, ItemTail.SealsNumbers,
    ItemTail.depth, Nat.max_le]
  constructor
  · rintro ⟨⟨hp, hp'⟩, ⟨hs, hs'⟩, hd, hd'⟩
    exact ⟨⟨hp, hs, hd⟩, hp', hs', hd'⟩
  · rintro ⟨⟨hp, hs, hd⟩, hp', hs', hd'⟩
    exact ⟨⟨hp, hp'⟩, ⟨hs, hs'⟩, hd, hd'⟩

theorem EntryTail.fine_next :
    (EntryTail.next beforeComma label v entries).Fine room ↔
      label.key.Paired ∧ v.Fine room ∧ entries.Fine room := by
  simp only [Node.Fine, EntryTail.Fine, EntryTail.PairsSurrogates, EntryTail.SealsNumbers,
    EntryTail.depth, Nat.max_le]
  constructor
  · rintro ⟨⟨hl, hp, hp'⟩, ⟨hs, hs'⟩, hd, hd'⟩
    exact ⟨hl, ⟨hp, hs, hd⟩, hp', hs', hd'⟩
  · rintro ⟨hl, ⟨hp, hs, hd⟩, hp', hs', hd'⟩
    exact ⟨⟨hl, hp, hp'⟩, ⟨hs, hs'⟩, hd, hd'⟩

theorem ItemTail.fine_close (before : List Blank) (room : Nat) :
    (ItemTail.close before).Fine room :=
  ⟨trivial, trivial, Nat.zero_le room⟩

theorem EntryTail.fine_close (before : List Blank) (room : Nat) :
    (EntryTail.close before).Fine room :=
  ⟨trivial, trivial, Nat.zero_le room⟩

theorem Node.fine_string (h : Literal.Paired l) (room : Nat) : (Node.string l).Fine room :=
  ⟨h, trivial, Nat.zero_le room⟩

theorem Node.fine_number (n : Numeral) (room : Nat) : (Node.number n).Fine room :=
  ⟨trivial, trivial, Nat.zero_le room⟩

theorem Node.fine_null (room : Nat) : Node.null.Fine room :=
  ⟨trivial, trivial, Nat.zero_le room⟩

theorem Node.fine_bool (b : Bool) (room : Nat) : (Node.bool b).Fine room :=
  ⟨trivial, trivial, Nat.zero_le room⟩

theorem Node.fine_emptyArray :
    (Node.emptyArray inside).Fine room ↔ 0 < room := by
  simp [Node.Fine, Node.PairsSurrogates, Node.SealsNumbers, Node.depth, Nat.succ_le_iff]

theorem Node.fine_emptyObject :
    (Node.emptyObject inside).Fine room ↔ 0 < room := by
  simp [Node.Fine, Node.PairsSurrogates, Node.SealsNumbers, Node.depth, Nat.succ_le_iff]

end Grammar

def roomIn (stack : List Frame) : Nat :=
  maxDepth - stack.length

theorem roomIn_cons {stack : List Frame} (h : stack.length < maxDepth) (f : Frame) :
    roomIn stack = roomIn (f :: stack) + 1 := by
  simp only [roomIn, List.length_cons]
  omega

end SchemaSnapshot.Json
