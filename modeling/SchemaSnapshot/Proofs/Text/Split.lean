import Mathlib.Data.List.DropRight
import SchemaSnapshot.Text.Split

namespace SchemaSnapshot.Text

variable {α : Type} {p : α → Bool}

theorem takeWhile_append_stop (cs ds : List α) (hx : p x = false) :
    (cs ++ x :: ds).takeWhile p = cs.takeWhile p := by
  induction cs with
  | nil => exact List.takeWhile_cons_of_neg (by simp [hx])
  | cons c cs ih =>
    rw [List.cons_append, List.takeWhile_cons, List.takeWhile_cons, ih]

theorem dropWhile_append_stop (cs ds : List α) (hx : p x = false) :
    (cs ++ x :: ds).dropWhile p = cs.dropWhile p ++ x :: ds := by
  rw [List.dropWhile_append, List.dropWhile_cons_of_neg (by simp [hx])]
  split
  · next h => rw [List.isEmpty_iff.1 h, List.nil_append]
  · rfl

theorem cut_append_stop (cs ds : List α) (hx : p x = true) :
    cut p (cs ++ x :: ds) = ((cut p cs).1, (cut p cs).2 ++ x :: ds) := by
  have hn : (!p x) = false := by simp [hx]
  rw [cut, takeWhile_append_stop (p := fun c => !p c) cs ds hn,
    dropWhile_append_stop (p := fun c => !p c) cs ds hn]
  rfl

theorem cut_of_forall {cs : List α} (h : ∀ c ∈ cs, p c = false) : cut p cs = (cs, []) := by
  have ht : cs.takeWhile (!p ·) = cs := List.takeWhile_eq_self_iff.2 (by simpa using h)
  have hd : cs.dropWhile (!p ·) = [] := List.dropWhile_eq_nil_iff.2 (by simpa using h)
  rw [cut, ht, hd]

theorem cut_append {cs ds : List α} (h : ∀ c ∈ cs, p c = false)
    (hd : ds = [] ∨ ∃ x r, ds = x :: r ∧ p x = true) : cut p (cs ++ ds) = (cs, ds) := by
  obtain rfl | ⟨x, r, rfl, hx⟩ := hd
  · rw [List.append_nil, cut_of_forall h]
  · rw [cut_append_stop cs r hx, cut_of_forall h]
    rfl

/-- What was cut is put together again. -/
theorem append_of_cut (h : cut p cs = (l, r)) : l ++ r = cs := by
  obtain ⟨rfl, rfl⟩ := Prod.mk.inj h
  exact List.takeWhile_append_dropWhile

theorem stop_of_cut (h : cut p cs = (l, x :: r)) : p x = true := by
  obtain ⟨-, hr⟩ := Prod.mk.inj h
  have hx := List.head_dropWhile_not (p := fun c => !p c) (l := cs) (by simp [hr])
  simpa [hr] using hx

theorem trim_eq_dropWhile {cs : List α} (h : ∀ c, cs.getLast? = some c → p c = false) :
    trim p cs = cs.dropWhile p := by
  apply List.rdropWhile_eq_self_iff.2
  intro hn
  rw [(List.dropWhile_suffix p).getLast hn]
  simp [h _ (List.getLast?_eq_some_getLast _)]

theorem trim_append {cs ds : List α} (hc : ∀ c, cs.getLast? = some c → p c = false)
    (hd : ∀ d ∈ ds, p d = false) : trim p (cs ++ ds) = trim p cs ++ ds := by
  cases ds with
  | nil => rw [List.append_nil, List.append_nil]
  | cons d ds =>
    have hl : ∀ c, (cs ++ d :: ds).getLast? = some c → p c = false := by
      intro c h
      rw [List.getLast?_append_cons] at h
      exact hd c (List.mem_of_getLast? h)
    rw [trim_eq_dropWhile hl, trim_eq_dropWhile hc,
      dropWhile_append_stop cs ds (hd d List.mem_cons_self)]

theorem split_eq_splitOnP (p : α → Bool) (cs : List α) : split p cs = cs.splitOnP p := by
  induction cs with
  | nil => rfl
  | cons c cs ih =>
    obtain ⟨q, qs, hq⟩ := List.exists_cons_of_ne_nil (List.splitOnP_ne_nil p cs)
    rw [split, ih, List.splitOnP_cons_eq_if_modifyHead, hq]
    rfl

theorem split_ne_nil (p : α → Bool) (cs : List α) : split p cs ≠ [] := by
  rw [split_eq_splitOnP]
  exact List.splitOnP_ne_nil p cs

theorem split_separator (hx : p x = true) (cs : List α) :
    split p (x :: cs) = [] :: split p cs := by
  simp [split, hx]

theorem split_cons {cs : List α} (hx : p x = false) (h : split p cs = q :: qs) :
    split p (x :: cs) = (x :: q) :: qs := by
  simp [split, hx, h]

theorem split_append (hx : p x = true) (l r : List α) :
    split p (l ++ x :: r) = split p l ++ split p r := by
  simp only [split_eq_splitOnP]
  exact List.splitOnP_append_cons l r hx

theorem split_of_forall {cs : List α} (h : ∀ c ∈ cs, p c = false) : split p cs = [cs] := by
  rw [split_eq_splitOnP]
  exact List.splitOnP_eq_singleton h

/-- Pieces put together with separators are parted there again. -/
theorem split_intercalate {ps : List (List α)} (hx : p x = true)
    (h : ∀ q ∈ ps, ∀ c ∈ q, p c = false) (hn : ps ≠ []) : split p
      ([x].intercalate ps) = ps := by
  induction ps with
  | nil => exact absurd rfl hn
  | cons q ps ih =>
    obtain ⟨hq, hps⟩ := List.forall_mem_cons.mp h
    cases ps with
    | nil =>
      rw [List.intercalate_singleton, split_of_forall hq]
    | cons r ps =>
      rw [List.intercalate_cons_cons, List.append_assoc, List.singleton_append, split_append hx,
        split_of_forall hq, ih hps (List.cons_ne_nil r ps)]
      rfl

theorem forall_mem_intercalate {P : α → Prop} {ps : List (List α)} (hx : P x)
    (h : ∀ q ∈ ps, ∀ c ∈ q, P c) : ∀ c ∈ [x].intercalate ps, P c := by
  induction ps with
  | nil => exact fun c hc => absurd hc List.not_mem_nil
  | cons q ps ih =>
    obtain ⟨hq, hps⟩ := List.forall_mem_cons.mp h
    cases ps with
    | nil => rwa [List.intercalate_singleton]
    | cons r ps =>
      rw [List.intercalate_cons_cons, List.forall_mem_append, List.forall_mem_append]
      exact ⟨⟨hq, List.forall_mem_singleton.mpr hx⟩, ih hps⟩

theorem not_of_mem_split {cs : List α} (h : q ∈ split p cs) : ∀ c ∈ q, p c = false := by
  induction cs generalizing q with
  | nil =>
    obtain rfl := List.mem_singleton.mp h
    exact fun c hc => absurd hc List.not_mem_nil
  | cons c cs ih =>
    cases hc : p c with
    | true =>
      rw [split_separator hc] at h
      obtain rfl | h := List.mem_cons.mp h
      · exact fun c hc => absurd hc List.not_mem_nil
      · exact ih h
    | false =>
      obtain ⟨r, rs, hr⟩ := List.exists_cons_of_ne_nil (split_ne_nil p cs)
      rw [split_cons hc hr] at h
      rw [hr] at ih
      obtain rfl | h := List.mem_cons.mp h
      · exact List.forall_mem_cons.mpr ⟨hc, ih List.mem_cons_self⟩
      · exact ih (List.mem_cons_of_mem r h)

theorem mem_of_mem_split {cs : List α} (h : q ∈ split p cs) : ∀ c ∈ q, c ∈ cs := by
  induction cs generalizing q with
  | nil =>
    obtain rfl := List.mem_singleton.mp h
    exact fun c hc => hc
  | cons x cs ih =>
    cases hx : p x with
    | true =>
      rw [split_separator hx] at h
      obtain rfl | h := List.mem_cons.mp h
      · exact fun c hc => absurd hc List.not_mem_nil
      · exact fun c hc => List.mem_cons_of_mem x (ih h c hc)
    | false =>
      obtain ⟨r, rs, hr⟩ := List.exists_cons_of_ne_nil (split_ne_nil p cs)
      rw [split_cons hx hr] at h
      rw [hr] at ih
      intro c hc
      obtain rfl | h := List.mem_cons.mp h
      · obtain rfl | hc := List.mem_cons.mp hc
        · exact List.mem_cons_self
        · exact List.mem_cons_of_mem x (ih List.mem_cons_self c hc)
      · exact List.mem_cons_of_mem x (ih (List.mem_cons_of_mem r h) c hc)

theorem split_map {f : α → α} (h : ∀ c, p (f c) = p c) (cs : List α) :
    split p (cs.map f) = (split p cs).map (List.map f) := by
  induction cs with
  | nil => rfl
  | cons c cs ih =>
    obtain ⟨q, qs, hq⟩ := List.exists_cons_of_ne_nil (split_ne_nil p cs)
    rw [hq] at ih
    cases hc : p c with
    | true => rw [split_separator hc, List.map_cons,
        split_separator ((h c).trans hc), ih, hq]; rfl
    | false => rw [split_cons hc hq, List.map_cons, split_cons ((h c).trans hc) ih]; rfl

/-- A piece in its text: each piece before it ends at a separator, and so does it if one
follows. -/
theorem eq_of_split [DecidableEq α] {x : α} (h : split (· = x) cs = ls ++ m :: rs) :
    ∃ r, cs = ls.flatMap (· ++ [x]) ++ (m ++ r) ∧ x ∉ m ∧
      (rs = [] ∧ r = [] ∨ ∃ t, r = x :: t) := by
  induction cs generalizing ls m with
  | nil =>
    cases ls with
    | nil =>
      obtain ⟨rfl, rfl⟩ := List.cons.inj h
      exact ⟨[], rfl, List.not_mem_nil, .inl ⟨rfl, rfl⟩⟩
    | cons l ls => simp [split] at h
  | cons c cs ih =>
    by_cases hc : c = x
    · subst hc
      rw [split_separator (by simp)] at h
      cases ls with
      | nil =>
        obtain ⟨rfl, rfl⟩ := List.cons.inj h
        exact ⟨c :: cs, rfl, List.not_mem_nil, .inr ⟨cs, rfl⟩⟩
      | cons l ls =>
        obtain ⟨rfl, ht⟩ := List.cons.inj h
        obtain ⟨r, hr, hm, he⟩ := ih ht
        exact ⟨r, congrArg (c :: ·) hr, hm, he⟩
    · obtain ⟨q, qs, hq⟩ := List.exists_cons_of_ne_nil (split_ne_nil (· = x) cs)
      rw [split_cons (by simpa using hc) hq] at h
      cases ls with
      | nil =>
        obtain ⟨rfl, rfl⟩ := List.cons.inj h
        obtain ⟨r, hr, hm, he⟩ := ih (show _ = [] ++ q :: qs from hq)
        exact ⟨r, congrArg (c :: ·) hr, by simp [Ne.symm hc, hm], he⟩
      | cons l ls =>
        obtain ⟨rfl, rfl⟩ := List.cons.inj h
        obtain ⟨r, hr, hm, he⟩ := ih (show _ = (q :: ls) ++ m :: rs from hq)
        exact ⟨r, congrArg (c :: ·) hr, hm, he⟩

end SchemaSnapshot.Text
