import SchemaSnapshot.Proofs.Json.Acceptance
import SchemaSnapshot.Proofs.Json.Number

namespace SchemaSnapshot.Json
open Grammar

namespace Members

variable {ms : Members}

theorem keys_insert (ms : Members) (key : String) (v : Value) :
    (ms.insert key v).keys = if key ∈ ms.keys then ms.keys else ms.keys ++ [key] := by
  induction ms with
  | nil => rfl
  | cons m ms ih =>
    obtain ⟨k, w⟩ := m
    simp only [insert]
    split
    · next hk => simp [keys, hk]
    · next hk =>
      simp only [keys, List.map_cons, List.mem_cons] at ih ⊢
      rw [ih]
      have hk' : ¬ key = k := fun h => hk h.symm
      by_cases hm : key ∈ ms.map Prod.fst
      · simp [hm]
      · simp [hm, hk']

theorem nodup_insert (h : ms.keys.Nodup) (key : String) (v : Value) :
    (ms.insert key v).keys.Nodup := by
  rw [keys_insert]
  split
  · exact h
  · next hk =>
    refine List.nodup_append.mpr ⟨h, List.nodup_cons.mpr ⟨List.not_mem_nil, List.nodup_nil⟩, ?_⟩
    intro a ha b hb hab
    rw [List.mem_singleton.mp hb] at hab
    exact hk (hab ▸ ha)

theorem head?_insert (h : ms.keys.head? = some k) (key : String) (v : Value) :
    (ms.insert key v).keys.head? = some k := by
  rw [keys_insert]
  split
  · exact h
  · rw [List.head?_append, h]
    rfl

theorem insert_of_notMem (h : key ∉ ms.keys) (v : Value) :
    ms.insert key v = ms ++ [(key, v)] := by
  induction ms with
  | nil => rfl
  | cons m ms ih =>
    obtain ⟨k, w⟩ := m
    simp only [keys, List.map_cons, List.mem_cons, not_or] at h
    rw [insert, if_neg fun hk => h.1 hk.symm, ih h.2]
    rfl

theorem mem_insert (h : m ∈ ms.insert key v) : m ∈ ms ∨ m.2 = v := by
  induction ms with
  | nil => exact .inr (congrArg Prod.snd (List.mem_singleton.mp h))
  | cons m' ms ih =>
    obtain ⟨k, w⟩ := m'
    rw [insert] at h
    split at h
    · obtain rfl | h := List.mem_cons.mp h
      · exact .inr rfl
      · exact .inl (List.mem_cons_of_mem _ h)
    · obtain rfl | h := List.mem_cons.mp h
      · exact .inl List.mem_cons_self
      · exact (ih h).imp (List.mem_cons_of_mem _) id

theorem get?_of_mem (h : ms.keys.Nodup) (hm : m ∈ ms) : ms.get? m.1 = some m.2 := by
  induction ms with
  | nil => exact absurd hm List.not_mem_nil
  | cons m' ms ih =>
    obtain ⟨k, w⟩ := m'
    obtain ⟨hk, hn⟩ := List.nodup_cons.mp h
    obtain rfl | ht := List.mem_cons.mp hm
    · simp [get?]
    · have hne : m.1 ≠ k := by
        rintro rfl
        exact hk (List.mem_map.mpr ⟨m, ht, rfl⟩)
      rw [get?, List.lookup_cons, beq_false_of_ne hne]
      exact ih hn ht

end Members

/-- The reader keeps this text of a number as it is. -/
def IsKept (text : String) : Prop :=
  ∃ n : Numeral, text.toList = n.chars ∧ keptChars n.chars = n.chars

theorem isKept_numeral (n : Numeral) : IsKept (String.ofList (keptChars n.chars)) := by
  refine ⟨n.normal, by rw [String.toList_ofList, n.kept], n.kept_kept⟩

namespace Value

mutual

/-- A document such as the reader gives where so many arrays and objects may still be opened. -/
def Readable (room : Nat) : Value → Prop
  | .number text => IsKept text
  | .array vs => 0 < room ∧ ItemsReadable (room - 1) vs
  | .object ms =>
    0 < room ∧ (Members.keys ms).Nodup ∧ (Members.keys ms).head? ≠ some numberKey ∧
      MembersReadable (room - 1) ms
  | _ => True

def ItemsReadable (room : Nat) : List Value → Prop
  | [] => True
  | v :: vs => v.Readable room ∧ ItemsReadable room vs

def MembersReadable (room : Nat) : List (String × Value) → Prop
  | [] => True
  | (_, v) :: ms => v.Readable room ∧ MembersReadable room ms

end

mutual

/-- Each number in a document is written as the grammar has it. -/
def WellFormed : Value → Prop
  | .number text => ∃ n : Numeral, text.toList = n.chars
  | .array vs => ItemsWellFormed vs
  | .object ms => MembersWellFormed ms
  | _ => True

def ItemsWellFormed : List Value → Prop
  | [] => True
  | v :: vs => v.WellFormed ∧ ItemsWellFormed vs

def MembersWellFormed : List (String × Value) → Prop
  | [] => True
  | (_, v) :: ms => v.WellFormed ∧ MembersWellFormed ms

end

mutual

theorem Readable.wellFormed {v : Value} (h : v.Readable room) : v.WellFormed := by
  match v with
  | .null => trivial
  | .bool b => trivial
  | .number text =>
    obtain ⟨n, hn, _⟩ := h
    exact ⟨n, hn⟩
  | .string s => trivial
  | .array vs => exact ItemsReadable.wellFormed h.2
  | .object ms => exact MembersReadable.wellFormed h.2.2.2

theorem ItemsReadable.wellFormed {vs : List Value} (h : ItemsReadable room vs) :
    ItemsWellFormed vs := by
  match vs with
  | [] => trivial
  | v :: vs => exact ⟨Readable.wellFormed h.1, ItemsReadable.wellFormed h.2⟩

theorem MembersReadable.wellFormed {ms : Members} (h : MembersReadable room ms) :
    MembersWellFormed ms := by
  match ms with
  | [] => trivial
  | (_, v) :: ms => exact ⟨Readable.wellFormed h.1, MembersReadable.wellFormed h.2⟩

end

theorem itemsReadable_iff : ItemsReadable room vs ↔ ∀ v ∈ vs, Readable room v := by
  induction vs with
  | nil => simp [ItemsReadable]
  | cons v vs ih => rw [ItemsReadable, ih, List.forall_mem_cons]

theorem membersReadable_iff :
    MembersReadable room ms ↔ ∀ m ∈ ms, Readable room m.2 := by
  induction ms with
  | nil => simp [MembersReadable]
  | cons m ms ih =>
    obtain ⟨k, v⟩ := m
    rw [MembersReadable, ih, List.forall_mem_cons]

theorem MembersReadable.insert (h : MembersReadable room ms) (hv : v.Readable room)
    (key : String) : MembersReadable room (Members.insert ms key v) := by
  rw [membersReadable_iff] at h ⊢
  intro m hm
  obtain hm | rfl := Members.mem_insert hm
  · exact h m hm
  · exact hv

mutual

theorem same_self (v : Value) (h : v.Readable room) : v.same v = true := by
  match v with
  | .null => rfl
  | .bool b => simp [same]
  | .number text => simp [same]
  | .string s => simp [same]
  | .array vs => exact sameItems_self vs h.2
  | .object ms =>
    simp only [same, BEq.rfl, Bool.true_and]
    exact sameMembers_self ms ms h.2.2.2 fun m => Members.get?_of_mem h.2.1

theorem sameItems_self (vs : List Value) (h : ItemsReadable room vs) :
    sameItems vs vs = true := by
  match vs with
  | [] => rfl
  | v :: vs => rw [sameItems, same_self v h.1, sameItems_self vs h.2, Bool.and_true]

theorem sameMembers_self (ms ms' : Members) (h : MembersReadable room ms)
    (hm : ∀ m ∈ ms, ms'.get? m.1 = some m.2) : sameMembers ms ms' = true := by
  match ms with
  | [] => rfl
  | (k, v) :: ms =>
    have hv : ms'.get? k = some v := hm (k, v) List.mem_cons_self
    have ht := sameMembers_self ms ms' h.2 fun m hm' => hm m (List.mem_cons_of_mem _ hm')
    rw [sameMembers, hv, ht, Bool.and_true]
    exact same_self v h.1

end

end Value

namespace Grammar

mutual

/-- What a derivation within the limits writes can be read. -/
theorem Node.readable (n : Node) (h : n.Fine room) : n.value.Readable room := by
  match n with
  | .null => trivial
  | .bool b => trivial
  | .number n => exact isKept_numeral n
  | .string l => trivial
  | .emptyArray inside => exact ⟨Node.fine_emptyArray.mp h, trivial⟩
  | .emptyObject inside =>
    exact ⟨Node.fine_emptyObject.mp h, List.nodup_nil, by simp [Members.keys], trivial⟩
  | .array before v tail =>
    obtain ⟨k, rfl⟩ : ∃ k, room = k + 1 := Nat.exists_eq_succ_of_ne_zero (by
      rintro rfl
      exact absurd h.2.2 (Nat.not_succ_le_zero _))
    obtain ⟨hv, ht⟩ := Node.fine_array.mp h
    exact ⟨Nat.succ_pos k, Node.readable v hv, ItemTail.readable tail ht⟩
  | .object label v tail =>
    obtain ⟨k, rfl⟩ : ∃ k, room = k + 1 := Nat.exists_eq_succ_of_ne_zero (by
      rintro rfl
      exact absurd h.2.2 (Nat.not_succ_le_zero _))
    obtain ⟨_, hs, hv, ht⟩ := Node.fine_object.mp h
    rw [Node.value]
    split
    · next hk =>
      obtain ⟨⟨l, n, rfl, hn⟩, _⟩ := hs hk
      rw [Node.sealedText, hn]
      exact isKept_numeral n
    · next hk =>
      have hm : Value.MembersReadable k [(label.key.content, v.value)] :=
        ⟨Node.readable v hv, trivial⟩
      obtain ⟨hn, hh, hr⟩ := EntryTail.readable tail ht hm (by simp [Members.keys]) rfl
      refine ⟨Nat.succ_pos k, hn, ?_, hr⟩
      rw [hh]
      intro h
      exact hk (Option.some.inj h)

theorem ItemTail.readable (tail : ItemTail) (h : tail.Fine room) :
    Value.ItemsReadable room tail.values := by
  match tail with
  | .close before => trivial
  | .next beforeComma before v tail =>
    obtain ⟨hv, ht⟩ := ItemTail.fine_next.mp h
    exact ⟨Node.readable v hv, ItemTail.readable tail ht⟩

theorem EntryTail.readable (tail : EntryTail) (h : tail.Fine room) {ms : Members}
    (hm : Value.MembersReadable room ms) (hn : ms.keys.Nodup) (hh : ms.keys.head? = some k) :
    (tail.members ms).keys.Nodup ∧ (tail.members ms).keys.head? = some k ∧
      Value.MembersReadable room (tail.members ms) := by
  match tail with
  | .close before => exact ⟨hn, hh, hm⟩
  | .next beforeComma label v tail =>
    obtain ⟨_, hv, ht⟩ := EntryTail.fine_next.mp h
    exact EntryTail.readable tail ht (hm.insert (Node.readable v hv) label.key.content)
      (Members.nodup_insert hn _ _) (Members.head?_insert hh _ _)

end

end Grammar

end SchemaSnapshot.Json
