import SchemaSnapshot.Proofs.Json.Readable

namespace SchemaSnapshot.Json

theorem eraseDups_concat (ks : List String) (key : String) :
    (ks ++ [key]).eraseDups = if key ∈ ks then ks.eraseDups else ks.eraseDups ++ [key] := by
  rw [List.eraseDups_append]
  split
  · next hk => simp [List.removeAll, hk]
  · next hk => simp [List.removeAll, hk, List.eraseDups_cons]

namespace Members

theorem get?_cons (k : String) (v : Value) (ms : Members) (key : String) :
    get? ((k, v) :: ms) key = if k = key then some v else get? ms key := by
  rw [get?, List.lookup_cons]
  by_cases hk : k = key
  · simp [hk]
  · simp [hk, beq_false_of_ne (Ne.symm hk), get?]

theorem mem_of_get? {ms : Members} (h : ms.get? key = some v) : (key, v) ∈ ms := by
  induction ms with
  | nil => cases h
  | cons m ms ih =>
    obtain ⟨k, w⟩ := m
    rw [get?_cons] at h
    split at h
    · next hk =>
      obtain rfl := hk
      obtain rfl := Option.some.inj h
      exact List.mem_cons_self
    · exact List.mem_cons_of_mem _ (ih h)

theorem get?_insert (ms : Members) (key : String) (v : Value) (k : String) :
    (ms.insert key v).get? k = if key = k then some v else ms.get? k := by
  induction ms with
  | nil => rw [insert, get?_cons]
  | cons m ms ih =>
    obtain ⟨l, w⟩ := m
    rw [insert]
    split
    · next hl =>
      subst hl
      rw [get?_cons, get?_cons]
      split
      · rfl
      · rfl
    · next hl =>
      rw [get?_cons, get?_cons, ih]
      split
      · next hk => rw [if_neg fun h => hl (hk.trans h.symm)]
      · rfl

end Members

namespace Grammar

structure Entry where
  key : Literal
  node : Node

/-- Keys are compared after their escapes are decoded. -/
def Entry.name (e : Entry) : String :=
  e.key.content

def Entry.member (e : Entry) : String × Value :=
  (e.name, e.node.value)

def ItemTail.nodes : ItemTail → List Node
  | .close _ => []
  | .next _ _ v tail => v :: tail.nodes

def EntryTail.entries : EntryTail → List Entry
  | .close _ => []
  | .next _ label v tail => ⟨label.key, v⟩ :: tail.entries

def Node.items : Node → List Node
  | .array _ v tail => v :: tail.nodes
  | _ => []

/-- The members of an object, first to last; one that stands for a number has none. -/
def Node.entries? : Node → Option (List Entry)
  | .emptyObject _ => some []
  | .object label v tail =>
    if label.key.content = numberKey then none else some (⟨label.key, v⟩ :: tail.entries)
  | _ => none

/-- What the key is given last. -/
def lastWith (key : String) (es : List Entry) : Option Node :=
  (es.findRev? fun e => e.name == key).map Entry.node

/-- Members are written so, and an object holds these for them. -/
structure Become (es : List Entry) (ms : Members) : Prop where
  nodup : ms.keys.Nodup
  /-- A key stands where it is given first. -/
  keys : ms.keys = (es.map Entry.name).eraseDups
  get? : ∀ key, ms.get? key = (lastWith key es).map Node.value

theorem ItemTail.values_eq (tail : ItemTail) : tail.values = tail.nodes.map Node.value := by
  match tail with
  | .close _ => rfl
  | .next _ _ v tail => rw [values, nodes, List.map_cons, ItemTail.values_eq tail]

theorem lastWith_concat (key : String) (es : List Entry) (e : Entry) :
    lastWith key (es ++ [e]) = if e.name = key then some e.node else lastWith key es := by
  rw [lastWith, lastWith, List.findRev?_eq_find?_reverse, List.findRev?_eq_find?_reverse,
    List.reverse_append, List.reverse_singleton, List.singleton_append, List.find?_cons]
  by_cases hk : e.name = key
  · simp [hk]
  · simp [hk, beq_false_of_ne hk]

theorem lastWith_eq_none_iff {key : String} {es : List Entry} :
    lastWith key es = none ↔ ∀ e ∈ es, e.name ≠ key := by
  simp [lastWith, List.findRev?_eq_find?_reverse]

theorem exists_of_lastWith (h : lastWith key es = some n) : ∃ e ∈ es, e.node = n := by
  obtain ⟨e, he, hn⟩ := Option.map_eq_some_iff.mp h
  rw [List.findRev?_eq_find?_reverse] at he
  exact ⟨e, List.mem_reverse.mp (List.mem_of_find?_eq_some he), hn⟩

namespace Become

theorem nil : Become [] [] :=
  ⟨List.nodup_nil, rfl, fun _ => rfl⟩

theorem concat (h : Become es ms) (e : Entry) :
    Become (es ++ [e]) (ms.insert e.name e.node.value) where
  nodup := Members.nodup_insert h.nodup _ _
  keys := by
    rw [Members.keys_insert, List.map_append, List.map_singleton, eraseDups_concat, h.keys]
    simp only [List.mem_eraseDups]
  get? key := by
    rw [Members.get?_insert, lastWith_concat, h.get?]
    split
    · rfl
    · rfl

theorem append_tail (h : Become es ms) (tail : EntryTail) :
    Become (es ++ tail.entries) (tail.members ms) := by
  match tail with
  | .close _ => rwa [EntryTail.entries, List.append_nil]
  | .next _ label v tail =>
    have ht := append_tail (h.concat ⟨label.key, v⟩) tail
    rw [List.append_assoc, List.singleton_append] at ht
    exact ht

end Become

theorem Node.entries?_object {label : Label} (h : label.key.content ≠ numberKey) :
    (Node.object label v tail).entries? = some (⟨label.key, v⟩ :: tail.entries) :=
  if_neg h

theorem Node.exists_of_entries? {n : Node} (h : n.entries? = some es) :
    (∃ inside, n = .emptyObject inside ∧ es = []) ∨
      ∃ label v tail, n = .object label v tail ∧ label.key.content ≠ numberKey ∧
        es = ⟨label.key, v⟩ :: tail.entries := by
  cases n with
  | emptyObject inside => exact .inl ⟨inside, rfl, (Option.some.inj h).symm⟩
  | object label v tail =>
    rw [entries?] at h
    split at h
    · cases h
    · next hk => exact .inr ⟨label, v, tail, rfl, hk, (Option.some.inj h).symm⟩
  | _ => cases h

theorem Node.exists_members {n : Node} (h : n.entries? = some es) :
    ∃ ms, n.value = .object ms ∧ Become es ms := by
  obtain ⟨inside, rfl, rfl⟩ | ⟨label, v, tail, rfl, hk, rfl⟩ := Node.exists_of_entries? h
  · exact ⟨[], rfl, .nil⟩
  · have hfirst : Become [⟨label.key, v⟩] [(label.key.content, v.value)] :=
      Become.nil.concat ⟨label.key, v⟩
    exact ⟨_, by rw [Node.value, if_neg hk], hfirst.append_tail tail⟩

theorem Node.entries?_of_value {n : Node} (h : n.value = .object ms) :
    ∃ es, n.entries? = some es ∧ Become es ms := by
  have hsome : ∃ es, n.entries? = some es := by
    cases n with
    | emptyObject inside => exact ⟨[], rfl⟩
    | object label v tail =>
      rw [Node.value] at h
      split at h
      · cases h
      · next hk => exact ⟨_, if_neg hk⟩
    | _ => cases h
  obtain ⟨es, hes⟩ := hsome
  obtain ⟨ms', hms', hb⟩ := Node.exists_members hes
  obtain rfl := Value.object.inj (h.symm.trans hms')
  exact ⟨es, hes, hb⟩

theorem Node.entries?_eq_none_iff {n : Node} :
    n.entries? = none ↔ ∀ ms, n.value ≠ .object ms := by
  constructor
  · intro h ms hms
    obtain ⟨es, hes, _⟩ := entries?_of_value hms
    rw [h] at hes
    cases hes
  · intro h
    cases hes : n.entries? with
    | none => rfl
    | some es =>
      obtain ⟨ms, hms, _⟩ := exists_members hes
      exact absurd hms (h ms)

theorem EntryTail.members_eq (tail : EntryTail)
    (h : (ms.keys ++ tail.entries.map Entry.name).Nodup) :
    tail.members ms = ms ++ tail.entries.map Entry.member := by
  match tail with
  | .close _ => rw [members, entries, List.map_nil, List.append_nil]
  | .next _ label v tail =>
    have hk : label.key.content ∉ ms.keys := by
      intro hk
      exact (List.nodup_append.mp h).2.2 _ hk _ List.mem_cons_self rfl
    have ht : (Members.keys (ms ++ [(label.key.content, v.value)]) ++
        tail.entries.map Entry.name).Nodup := by
      rwa [Members.keys, List.map_append, List.append_assoc]
    rw [members, Members.insert_of_notMem hk, EntryTail.members_eq tail ht, List.append_assoc]
    rfl

theorem Node.value_of_entries? {n : Node} (h : n.entries? = some es)
    (hn : (es.map Entry.name).Nodup) : n.value = .object (es.map Entry.member) := by
  obtain ⟨inside, rfl, rfl⟩ | ⟨label, v, tail, rfl, hk, rfl⟩ := Node.exists_of_entries? h
  · rfl
  · have hm : tail.members [(label.key.content, v.value)] =
        [(label.key.content, v.value)] ++ tail.entries.map Entry.member :=
      EntryTail.members_eq tail hn
    rw [Node.value, if_neg hk, hm]
    rfl

end Grammar

end SchemaSnapshot.Json
