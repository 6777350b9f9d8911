import Mathlib.Data.List.Nodup
import Mathlib.Data.List.Perm.Subperm
import SchemaSnapshot.Proofs.Json.Place

namespace SchemaSnapshot.Json

namespace Members

def sorted (ms : Members) : Members :=
  ms.mergeSort fun m n => m.1 ≤ n.1

theorem sorted_perm (ms : Members) : ms.sorted.Perm ms :=
  List.mergeSort_perm ms _

theorem sorted_pairwise (ms : Members) : ms.sorted.Pairwise fun m n => m.1 ≤ n.1 := by
  have h : ms.sorted.Pairwise fun m n => decide (m.1 ≤ n.1) = true := by
    apply List.pairwise_mergeSort
    · intro a b c hab hbc
      exact decide_eq_true (String.le_trans (of_decide_eq_true hab) (of_decide_eq_true hbc))
    · intro a b
      simpa using String.le_total a.1 b.1
  exact h.imp of_decide_eq_true

variable {ms ns : Members}

theorem eq_of_mem (h : ms.keys.Nodup) (hm : m ∈ ms) (hn : n ∈ ms) (hk : m.1 = n.1) : m = n := by
  have hv := get?_of_mem h hm
  rw [hk, get?_of_mem h hn] at hv
  exact Prod.ext hk (Option.some.inj hv).symm

/-- Where keys are distinct, which members there are determines how they are sorted. -/
theorem sorted_eq_iff (hm : ms.keys.Nodup) (hn : ns.keys.Nodup) :
    ms.sorted = ns.sorted ↔ ms.length = ns.length ∧ ms ⊆ ns := by
  constructor
  · intro h
    have hp : ms.Perm ns := ms.sorted_perm.symm.trans (h ▸ ns.sorted_perm)
    exact ⟨hp.length_eq, hp.subset⟩
  · rintro ⟨hl, hs⟩
    have hp : ms.Perm ns :=
      (List.subperm_of_subset (List.Nodup.of_map _ hm) hs).perm_of_length_le
        (Nat.le_of_eq hl.symm)
    have hsorted : ms.sorted.Perm ns.sorted :=
      (ms.sorted_perm.trans hp).trans ns.sorted_perm.symm
    -- Two members that compare equal are one, so a list has one order only.
    refine hsorted.eq_of_pairwise ?_ ms.sorted_pairwise ns.sorted_pairwise
    intro m n hmem hmem' hle hle'
    have hm' : m ∈ ns := hs (ms.sorted_perm.mem_iff.mp hmem)
    exact eq_of_mem hn hm' (ns.sorted_perm.mem_iff.mp hmem') (String.le_antisymm hle hle')

theorem map_keys {f : String → String × Value} (h : ∀ m ∈ ms, f m.1 = m) :
    ms.keys.map f = ms := by
  rw [keys, List.map_map]
  exact (List.map_congr_left h).trans (List.map_id ms)

theorem eq_of_keys (hn : ns.keys.Nodup) (hk : ms.keys = ns.keys)
    (h : ∀ m ∈ ms, ns.get? m.1 = some m.2) : ms = ns := by
  -- Both lists can be read off their keys in the same way.
  let f (key : String) : String × Value := (key, (ns.get? key).getD .null)
  have hf : ∀ m : String × Value, ns.get? m.1 = some m.2 → f m.1 = m := by
    intro m hm
    simp only [f, hm, Option.getD_some]
  calc
    ms = ms.keys.map f := (map_keys fun m hm => hf m (h m hm)).symm
    _ = ns.keys.map f := by rw [hk]
    _ = ns := map_keys fun n hm => hf n (get?_of_mem hn hm)

end Members

namespace Value

/-- A document is built from the parts of its arrays and objects. -/
theorem induction {P : Value → Prop} (null : P .null) (bool : ∀ b, P (.bool b))
    (number : ∀ text, P (.number text)) (string : ∀ s, P (.string s))
    (array : ∀ vs, (∀ v ∈ vs, P v) → P (.array vs))
    (object : ∀ ms : Members, (∀ m ∈ ms, P m.2) → P (.object ms)) (v : Value) : P v :=
  @Value.rec P (fun vs => ∀ v ∈ vs, P v) (fun ms => ∀ m ∈ ms, P m.2) (fun m => P m.2)
    null bool number string array object
    (fun _ hv => absurd hv List.not_mem_nil) (fun _ _ hv hvs =>
      List.forall_mem_cons.mpr ⟨hv, hvs⟩)
    (fun _ hm => absurd hm List.not_mem_nil) (fun _ _ hm hms =>
      List.forall_mem_cons.mpr ⟨hm, hms⟩)
    (fun _ _ hv => hv) v

mutual

/-- The document with the members of every object in the order of their keys. -/
def sorted : Value → Value
  | .array vs => .array (sortedItems vs)
  | .object ms => .object (Members.sorted (sortedMembers ms))
  | v => v

def sortedItems : List Value → List Value
  | [] => []
  | v :: vs => v.sorted :: sortedItems vs

def sortedMembers : List (String × Value) → List (String × Value)
  | [] => []
  | (key, v) :: ms => (key, v.sorted) :: sortedMembers ms

end

theorem sortedMembers_eq (ms : Members) :
    sortedMembers ms = ms.map fun m => (m.1, m.2.sorted) := by
  induction ms with
  | nil => rfl
  | cons m ms ih => rw [sortedMembers, ih, List.map_cons]

theorem keys_sortedMembers (ms : Members) : Members.keys (sortedMembers ms) = ms.keys := by
  rw [sortedMembers_eq, Members.keys, List.map_map]
  rfl

theorem sameMembers_iff :
    sameMembers ms ns = true ↔ ∀ m ∈ ms, ∃ w, Members.get? ns m.1 = some w ∧
      m.2.same w = true := by
  -- Members on the left are taken one by one, all those on the right are kept for lookup.
  induction ms with
  | nil => simp [sameMembers]
  | cons m ms ih =>
    rw [sameMembers, Bool.and_eq_true, ih, List.forall_mem_cons]
    apply and_congr_left'
    cases Members.get? ns m.1 with
    | none => simp
    | some w => simp

theorem sameItems_iff_sorted
    (h : ∀ v ∈ vs, ∀ w ∈ ws, v.same w = true ↔ v.sorted = w.sorted) :
    sameItems vs ws = true ↔ sortedItems vs = sortedItems ws := by
  induction vs generalizing ws with
  | nil => cases ws <;> simp [sameItems, sortedItems]
  | cons v vs ih =>
    cases ws with
    | nil => simp [sameItems, sortedItems]
    | cons w ws =>
      have hvw := h v List.mem_cons_self w List.mem_cons_self
      have ht := ih fun v' hv' w' hw' =>
        h v' (List.mem_cons_of_mem _ hv') w' (List.mem_cons_of_mem _ hw')
      rw [sameItems, Bool.and_eq_true, hvw, ht, sortedItems, sortedItems, List.cons.injEq]

theorem sameMembers_iff_sorted {ms ns : Members} (hn : ns.keys.Nodup)
    (h : ∀ m ∈ ms, ∀ n ∈ ns, m.2.same n.2 = true ↔ m.2.sorted = n.2.sorted) :
    sameMembers ms ns = true ↔ sortedMembers ms ⊆ sortedMembers ns := by
  rw [sameMembers_iff, sortedMembers_eq, sortedMembers_eq]
  constructor
  · intro hsame x hx
    obtain ⟨m, hm, rfl⟩ := List.mem_map.mp hx
    obtain ⟨w, hw, hmw⟩ := hsame m hm
    have hmem := Members.mem_of_get? hw
    exact List.mem_map.mpr ⟨(m.1, w), hmem, by rw [(h m hm _ hmem).mp hmw]⟩
  · intro hsub m hm
    obtain ⟨n, hmem, hnm⟩ := List.mem_map.mp (hsub (List.mem_map_of_mem hm))
    obtain ⟨hk, hv⟩ := Prod.ext_iff.mp hnm
    have hk' : n.1 = m.1 := hk
    exact ⟨n.2, hk' ▸ Members.get?_of_mem hn hmem, (h m hm n hmem).mpr hv.symm⟩

/-- Documents that were read are the same exactly if they are equal in the order of their keys.
-/
theorem same_iff_sorted {v w : Value} (hv : v.Readable room) (hw : w.Readable room') :
    v.same w = true ↔ v.sorted = w.sorted := by
  induction v using Value.induction generalizing w room room' with
  | null => cases w <;> simp [same, sorted]
  | bool b => cases w <;> simp [same, sorted]
  | number text => cases w <;> simp [same, sorted]
  | string s => cases w <;> simp [same, sorted]
  | array vs ih =>
    cases w with
    | array ws =>
      rw [same, sorted, sorted, Value.array.injEq]
      exact sameItems_iff_sorted fun v hmem w hmem' =>
        ih v hmem (itemsReadable_iff.mp hv.2 v hmem) (itemsReadable_iff.mp hw.2 w hmem')
    | _ => simp [same, sorted]
  | object ms ih =>
    cases w with
    | object ns =>
      obtain ⟨_, hm, _, hms⟩ := hv
      obtain ⟨_, hn, _, hns⟩ := hw
      rw [membersReadable_iff] at hms hns
      have hsub := sameMembers_iff_sorted hn fun m hmem n hmem' =>
        ih m hmem (hms m hmem) (hns n hmem')
      rw [← keys_sortedMembers] at hm hn
      rw [same, sorted, sorted, Value.object.injEq, Members.sorted_eq_iff hm hn,
        Bool.and_eq_true,
        hsub, sortedMembers_eq, sortedMembers_eq]
      simp
    | _ => simp [same, sorted]

theorem exists_member?_of_same {v w : Value} (h : v.same w = true)
    (hu : v.member? key = some u) :
    ∃ u', w.member? key = some u' ∧ u.same u' = true := by
  cases v with
  | object ms =>
    cases w with
    | object ns =>
      rw [same, Bool.and_eq_true] at h
      exact sameMembers_iff.mp h.2 _ (Members.mem_of_get? hu)
    | _ => cases h
  | _ => cases hu

theorem member?_eq_of_same {v w : Value} (h : v.same w = true) (h' : w.same v = true)
    (key : String) : (v.member? key == w.member? key) = true := by
  cases hv : v.member? key with
  | some u =>
    obtain ⟨u', hw, hu⟩ := exists_member?_of_same h hv
    rw [hw]
    exact hu
  | none =>
    cases hw : w.member? key with
    | none => rfl
    | some u =>
      obtain ⟨u', hv', _⟩ := exists_member?_of_same h' hw
      rw [hv] at hv'
      cases hv'

/-- In objects at the same place, keys stand in the same order. -/
def SameOrder (v w : Value) : Prop :=
  ∀ p (ms ns : Members), v.at? p = some (.object ms) → w.at? p = some (.object ns) →
    ms.keys = ns.keys

theorem SameOrder.refl (v : Value) : v.SameOrder v := by
  intro p ms ns hm hn
  rw [hm] at hn
  rw [Value.object.inj (Option.some.inj hn)]

theorem SameOrder.child? {v w : Value} (h : v.SameOrder w) (hv : v.child? b = some v')
    (hw : w.child? b = some w') : v'.SameOrder w' := by
  intro p ms ns hm hn
  apply h (b :: p)
  · rwa [at?, hv]
  · rwa [at?, hw]

theorem eq_of_sameItems (hs : sameItems vs ws = true)
    (h : ∀ (i : Nat) v w, vs[i]? = some v → ws[i]? = some w → same v w = true →
      v = w) : vs = ws := by
  induction vs generalizing ws with
  | nil =>
    cases ws with
    | nil => rfl
    | cons w ws => cases hs
  | cons v vs ih =>
    cases ws with
    | nil => cases hs
    | cons w ws =>
      rw [sameItems, Bool.and_eq_true] at hs
      have hv : v = w := h 0 v w rfl rfl hs.1
      have ht : vs = ws := ih hs.2 fun i => h (i + 1)
      rw [hv, ht]

/-- Documents that are the same are equal if their keys stand in the same order. -/
theorem eq_of_same {v w : Value} (hv : v.Readable room) (hw : w.Readable room')
    (hs : v.same w = true) (ho : v.SameOrder w) : v = w := by
  induction v using Value.induction generalizing w room room' with
  | null => cases w <;> simp_all [same]
  | bool b => cases w <;> simp_all [same]
  | number text => cases w <;> simp_all [same]
  | string s => cases w <;> simp_all [same]
  | array vs ih =>
    cases w with
    | array ws =>
      refine congrArg _ (eq_of_sameItems hs fun i v w hi hi' hvw => ?_)
      have hmem := List.mem_of_getElem? hi
      have hmem' := List.mem_of_getElem? hi'
      exact ih v hmem (itemsReadable_iff.mp hv.2 v hmem) (itemsReadable_iff.mp hw.2 w hmem') hvw
        (ho.child? (b := .item i) hi hi')
    | _ => cases hs
  | object ms ih =>
    cases w with
    | object ns =>
      obtain ⟨_, hm, _, hms⟩ := hv
      obtain ⟨_, hn, _, hns⟩ := hw
      rw [membersReadable_iff] at hms hns
      rw [same, Bool.and_eq_true] at hs
      refine congrArg _ (Members.eq_of_keys hn (ho [] ms ns rfl rfl) fun m hmem => ?_)
      obtain ⟨w, hw, hmw⟩ := sameMembers_iff.mp hs.2 m hmem
      have hmo : m.2.SameOrder w :=
        ho.child? (b := .member m.1) (Members.get?_of_mem hm hmem) hw
      rw [hw, ih m hmem (hms m hmem) (hns _ (Members.mem_of_get? hw)) hmw hmo]
    | _ => cases hs

end Value

end SchemaSnapshot.Json
