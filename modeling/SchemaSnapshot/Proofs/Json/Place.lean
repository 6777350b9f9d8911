import SchemaSnapshot.Proofs.Json.Printer
import SchemaSnapshot.Proofs.Json.Unambiguous

namespace SchemaSnapshot.Json
open Grammar

inductive Branch where
  | item (index : Nat)
  | member (key : String)

abbrev Place := List Branch

namespace Value

def child? : Value → Branch → Option Value
  | .array vs, .item i => vs[i]?
  | .object ms, .member key => Members.get? ms key
  | _, _ => none

def at? (v : Value) : Place → Option Value
  | [] => some v
  | b :: p => (v.child? b).bind fun u => u.at? p

theorem child?_member (v : Value) (key : String) : v.child? (.member key) = v.member? key := by
  cases v with
  | _ => rfl

end Value

namespace Grammar

namespace Node

/-- What is kept of a value: of members with the same key, the last one. -/
def child? (n : Node) : Branch → Option Node
  | .item i => n.items[i]?
  | .member key => n.entries?.bind (lastWith key)

def at? (n : Node) : Place → Option Node
  | [] => some n
  | b :: p => (n.child? b).bind fun m => m.at? p

theorem value_child?_item (n : Node) (i : Nat) :
    n.value.child? (.item i) = n.items[i]?.map Node.value := by
  cases n with
  | array before v tail =>
    rw [value, items, ← List.getElem?_map, List.map_cons, ← tail.values_eq]
    rfl
  | object label v tail =>
    rw [value]
    split
    · rfl
    · rfl
  | _ => rfl

theorem value_child?_member (n : Node) (key : String) :
    n.value.child? (.member key) = (n.entries?.bind (lastWith key)).map Node.value := by
  cases hes : n.entries? with
  | some es =>
    obtain ⟨ms, hms, hb⟩ := exists_members hes
    rw [hms]
    exact hb.get? key
  | none =>
    cases hn : n.value with
    | object ms => exact absurd hn (entries?_eq_none_iff.mp hes ms)
    | _ => rfl

theorem value_child? (n : Node) (b : Branch) :
    n.value.child? b = (n.child? b).map Node.value := by
  cases b with
  | item i => exact n.value_child?_item i
  | member key => exact n.value_child?_member key

theorem value_at? (n : Node) (p : Place) : n.value.at? p = (n.at? p).map Node.value := by
  induction p generalizing n with
  | nil => rfl
  | cons b p ih =>
    rw [Value.at?, at?, value_child?]
    cases n.child? b with
    | none => rfl
    | some m => exact ih m

end Node

/-- The parts of a value have what it has, and the keys in it have something too. -/
structure Inherited (P : Node → Prop) (K : Literal → Prop) (Q : ItemTail → Prop)
    (R : EntryTail → Prop) : Prop where
  array : P (.array before v tail) → P v ∧ Q tail
  nextItem : Q (.next beforeComma before v tail) → P v ∧ Q tail
  object : P (.object label v tail) → K label.key ∧ P v ∧ R tail
  nextEntry : R (.next beforeComma label v tail) → K label.key ∧ P v ∧ R tail

namespace Inherited

variable {P : Node → Prop} {K : Literal → Prop} {Q : ItemTail → Prop} {R : EntryTail → Prop}

theorem itemTail (hP : Inherited P K Q R) {tail : ItemTail} (h : Q tail) :
    ∀ m ∈ tail.nodes, P m := by
  match tail with
  | .close _ => exact fun m hm => absurd hm List.not_mem_nil
  | .next _ _ v tail =>
    obtain ⟨hv, ht⟩ := hP.nextItem h
    exact List.forall_mem_cons.mpr ⟨hv, hP.itemTail ht⟩

theorem entryTail (hP : Inherited P K Q R) {tail : EntryTail} (h : R tail) :
    ∀ e ∈ tail.entries, K e.key ∧ P e.node := by
  match tail with
  | .close _ => exact fun e he => absurd he List.not_mem_nil
  | .next _ _ v tail =>
    obtain ⟨hk, hv, ht⟩ := hP.nextEntry h
    exact List.forall_mem_cons.mpr ⟨⟨hk, hv⟩, hP.entryTail ht⟩

theorem items (hP : Inherited P K Q R) {n : Node} (h : P n) : ∀ m ∈ n.items, P m := by
  cases n with
  | array before v tail =>
    obtain ⟨hv, ht⟩ := hP.array h
    exact List.forall_mem_cons.mpr ⟨hv, hP.itemTail ht⟩
  | _ => exact fun m hm => absurd hm List.not_mem_nil

theorem entries (hP : Inherited P K Q R) {n : Node} (h : P n) (hes : n.entries? = some es) :
    ∀ e ∈ es, K e.key ∧ P e.node := by
  obtain ⟨inside, rfl, rfl⟩ | ⟨label, v, tail, rfl, _, rfl⟩ := Node.exists_of_entries? hes
  · exact fun e he => absurd he List.not_mem_nil
  · obtain ⟨hk, hv, ht⟩ := hP.object h
    exact List.forall_mem_cons.mpr ⟨⟨hk, hv⟩, hP.entryTail ht⟩

theorem child? (hP : Inherited P K Q R) {n : Node} (h : P n) (hm : n.child? b = some m) :
    P m := by
  cases b with
  | item i => exact hP.items h m (List.mem_of_getElem? hm)
  | member key =>
    obtain ⟨es, hes, hlast⟩ := Option.bind_eq_some_iff.mp hm
    obtain ⟨e, he, rfl⟩ := exists_of_lastWith hlast
    exact (hP.entries h hes e he).2

theorem at? (hP : Inherited P K Q R) {n : Node} (h : P n) (hm : n.at? p = some m) : P m := by
  induction p generalizing n with
  | nil =>
    obtain rfl := Option.some.inj hm
    exact h
  | cons b p ih =>
    obtain ⟨k, hk, hm'⟩ := Option.bind_eq_some_iff.mp hm
    exact ih (hP.child? h hk) hm'

end Inherited

theorem inherited_settled :
    Inherited Node.Settled (fun _ => True) ItemTail.Settled EntryTail.Settled where
  array h := h
  nextItem h := h
  object h := ⟨trivial, h.2.2⟩
  nextEntry h := ⟨trivial, h⟩

theorem inherited_pairsSurrogates :
    Inherited Node.PairsSurrogates Literal.Paired ItemTail.PairsSurrogates
      EntryTail.PairsSurrogates where
  array h := h
  nextItem h := h
  object h := h
  nextEntry h := h

theorem inherited_writes (f : Layout) :
    Inherited (fun n => ∃ depth v room, f.Writes depth v n ∧ v.Readable room) (fun _ => True)
      (fun tail => ∃ depth vs room, f.WritesItems depth vs tail ∧ Value.ItemsReadable room vs)
      (fun tail =>
        ∃ depth ms room, f.WritesEntries depth ms tail ∧ Value.MembersReadable room ms) where
  array := by
    rintro _ _ _ ⟨_, _, _, h, hr⟩
    cases h with
    | array hv ht => exact ⟨⟨_, _, _, hv, hr.2.1⟩, _, _, _, ht, hr.2.2⟩
  nextItem := by
    rintro _ _ _ _ ⟨_, _, _, h, hr⟩
    cases h with
    | next hv ht => exact ⟨⟨_, _, _, hv, hr.1⟩, _, _, _, ht, hr.2⟩
  object := by
    rintro _ _ _ ⟨_, _, _, h, hr⟩
    cases h with
    | object _ hv ht =>
      exact ⟨trivial, ⟨_, _, _, hv, hr.2.2.2.1⟩, _, _, _, ht, hr.2.2.2.2⟩
  nextEntry := by
    rintro _ _ _ _ ⟨_, _, _, h, hr⟩
    cases h with
    | next _ hv ht => exact ⟨trivial, ⟨_, _, _, hv, hr.1⟩, _, _, _, ht, hr.2⟩

namespace Node

theorem Settled.nodup_names {n : Node} (h : n.Settled) (hes : n.entries? = some es) :
    (es.map Entry.name).Nodup := by
  obtain ⟨inside, rfl, rfl⟩ | ⟨label, v, tail, rfl, _, rfl⟩ := exists_of_entries? hes
  · exact List.nodup_nil
  · exact h.2.1

theorem Settled.eq_number {n : Node} {m : Numeral} (h : n.Settled)
    (hv : n.value = .number (String.ofList m.chars)) : n = .number m := by
  cases n with
  | number k =>
    have hk : keptChars k.chars = k.chars := h
    have hkm : k.chars = m.chars := hk ▸ String.ofList_injective (Value.number.inj hv)
    rw [Numeral.chars_injective hkm]
  | object label v tail =>
    rw [value, if_neg h.1] at hv
    cases hv
  | _ => cases hv

theorem Settled.number_at? {n : Node} {m : Numeral} (h : n.Settled)
    (hv : n.value.at? p = some (.number (String.ofList m.chars))) :
    n.at? p = some (.number m) := by
  rw [value_at?] at hv
  obtain ⟨k, hk, hkv⟩ := Option.map_eq_some_iff.mp hv
  rw [hk, (inherited_settled.at? h hk).eq_number hkv]

end Node

end Grammar

namespace Value

theorem Readable.member? {v : Value} (h : v.Readable room) (hu : v.member? key = some u) :
    u.Readable (room - 1) := by
  cases v with
  | object ms => exact membersReadable_iff.mp h.2.2.2 _ (Members.mem_of_get? hu)
  | _ => cases hu

/-- However a document is laid out, what it has stands there at the same place. -/
theorem exists_derives (f : Layout) {v : Value} (h : v.Readable room) :
    ∃ t : Text, t.Derives (Utf8.encode (v.laidOut f 0)) ∧ t.node.Settled ∧
      t.node.value = v := by
  obtain ⟨t, ht, _, hs, hv⟩ := exists_text f h
  exact ⟨t, Text.derives_iff.mpr (congrArg Utf8.encode ht.symm), hs, hv⟩

theorem exists_derives_pretty {v : Value} (h : v.Readable room) :
    ∃ t : Text, t.Derives (octets v.pretty) ∧ t.node.Settled ∧ t.node.value = v := by
  rw [octets_pretty]
  exact exists_derives .indented h

theorem exists_derives_compact {v : Value} (h : v.Readable room) :
    ∃ t : Text, t.Derives (octets v.compact) ∧ t.node.Settled ∧ t.node.value = v := by
  rw [octets_compact]
  exact exists_derives .tight h

end Value

/-- What a document has at a place is written there in the same layout. -/
theorem Layout.Writes.at? {f : Layout} (h : f.Writes depth v n) (hv : v.Readable room)
    (hu : v.at? p = some u) :
    ∃ m k, n.at? p = some m ∧ m.value = u ∧ u.WellFormed ∧ f.Writes k u m := by
  rw [← (h.fine hv).2.2, n.value_at?] at hu
  obtain ⟨m, hm, rfl⟩ := Option.map_eq_some_iff.mp hu
  obtain ⟨k, u, _, hw, hr⟩ := (inherited_writes f).at? ⟨_, _, _, h, hv⟩ hm
  obtain rfl := (hw.fine hr).2.2
  exact ⟨m, k, hm, rfl, hr.wellFormed, hw⟩

theorem exists_derives_of_read (h : read bs = .ok v) :
    ∃ t : Text, t.Derives bs ∧ t.node.PairsSurrogates ∧ t.node.value = v := by
  obtain ⟨t, hb, hp, _, _, hv⟩ := read_eq_ok_iff_text.mp h
  exact ⟨t, Text.derives_iff.mpr hb, hp, hv⟩

end SchemaSnapshot.Json
