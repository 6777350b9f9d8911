import SchemaSnapshot.Proofs.Json.Blanks
import SchemaSnapshot.Proofs.Text.Split

namespace SchemaSnapshot.Json
open Grammar

def IsOpening (c : Char) : Prop := c = '[' ∨ c = '{'

def IsClosing (c : Char) : Prop := c = ']' ∨ c = '}'

instance : DecidablePred IsOpening := fun _ => inferInstanceAs (Decidable (_ ∨ _))

instance : DecidablePred IsClosing := fun _ => inferInstanceAs (Decidable (_ ∨ _))

/-- How many arrays and objects begin in a text. -/
def openings (cs : List Char) : Nat :=
  (bare cs).countP fun c => IsOpening c

/-- How many arrays and objects end in a text. -/
def closings (cs : List Char) : Nat :=
  (bare cs).countP fun c => IsClosing c

/-- A text that ends outside of string literals, inside so many arrays and objects. -/
structure LeavesOpen (cs : List Char) (depth : Nat) : Prop where
  closed : Closed cs
  openings_eq : openings cs = closings cs + depth

namespace LeavesOpen

theorem nil : LeavesOpen [] 0 := ⟨rfl, rfl⟩

theorem append (h : LeavesOpen cs d) (hc : Closed ds)
    (ho : openings ds + d = closings ds + d') :
    LeavesOpen (cs ++ ds) d' := by
  have he := h.openings_eq
  refine ⟨h.closed.append hc, ?_⟩
  simp only [openings, closings, bare_append h.closed, List.countP_append] at he ho ⊢
  omega

theorem opening (h : LeavesOpen cs d) (hc : IsOpening c) : LeavesOpen (cs ++ [c]) (d + 1) := by
  obtain rfl | rfl := hc
  · exact h.append rfl (show 1 + d = 0 + (d + 1) by omega)
  · exact h.append rfl (show 1 + d = 0 + (d + 1) by omega)

theorem closing (h : LeavesOpen cs (d + 1)) (hc : IsClosing c) : LeavesOpen (cs ++ [c]) d := by
  obtain rfl | rfl := hc
  · exact h.append rfl (show 0 + (d + 1) = 1 + d by omega)
  · exact h.append rfl (show 0 + (d + 1) = 1 + d by omega)

theorem literal (h : LeavesOpen cs d) (s : String) : LeavesOpen (cs ++ literal s) d := by
  refine h.append (Erases.literal s).closed ?_
  rw [openings, closings, bare_literal]
  rfl

theorem neutral (h : LeavesOpen cs d) (hn : ∀ c ∈ ds, c ≠ '"' ∧ ¬ IsOpening c ∧ ¬ IsClosing c) :
    LeavesOpen (cs ++ ds) d := by
  induction ds generalizing cs with
  | nil => rwa [List.append_nil]
  | cons c ds ih =>
    obtain ⟨⟨hq, ho, hc⟩, ht⟩ := List.forall_mem_cons.mp hn
    rw [List.append_cons]
    refine ih (h.append (if_neg hq) ?_) ht
    simp [openings, closings, bare, bareOf, Stand.marked, ho, hc]

theorem mark (h : LeavesOpen cs d) (hn : c ≠ '"' ∧ ¬ IsOpening c ∧ ¬ IsClosing c) :
    LeavesOpen (cs ++ [c]) d :=
  h.neutral (List.forall_mem_singleton.mpr hn)

theorem plain (h : LeavesOpen cs d) (hp : ∀ c ∈ ds, IsPlain c) : LeavesOpen (cs ++ ds) d := by
  refine h.neutral fun c hc => ?_
  obtain ⟨-, hn⟩ := hp c hc
  simp only [List.mem_cons, List.not_mem_nil, or_false, not_or] at hn
  simp [IsOpening, IsClosing, hn]

theorem blanks (h : LeavesOpen cs d) (bs : List Blank) : LeavesOpen (cs ++ bs.unattach) d := by
  refine h.neutral fun c hc => ?_
  obtain ⟨hb, -⟩ := List.mem_unattach.mp hc
  obtain rfl | rfl | rfl | rfl := hb
  all_goals decide

end LeavesOpen

/-- This holds at every place of a text that stands between two others: of what is before, the
character there and what is after. -/
def Throughout (P : List Char → Char → List Char → Prop) (l : List Char) :
    List Char → List Char → Prop
  | [], _ => True
  | c :: m, r => P l c (m ++ r) ∧ Throughout P (l ++ [c]) m r

namespace Throughout

variable {P : List Char → Char → List Char → Prop}

theorem append (h : Throughout P l m (n ++ r)) (h' : Throughout P (l ++ m) n r) :
    Throughout P l (m ++ n) r := by
  induction m generalizing l with
  | nil => rwa [List.append_nil] at h'
  | cons c m ih =>
    have hc : P l c ((m ++ n) ++ r) := by
      rw [List.append_assoc]
      exact h.1
    rw [List.append_cons] at h'
    exact ⟨hc, ih h.2 h'⟩

theorem at_place (h : Throughout P l (m ++ c :: n) r) : P (l ++ m) c (n ++ r) := by
  induction m generalizing l with
  | nil =>
    rw [List.append_nil]
    exact h.1
  | cons d m ih =>
    rw [List.append_cons]
    exact ih h.2

theorem of_forall (h : ∀ c ∈ m, ∀ l r, P l c r) (l r : List Char) : Throughout P l m r := by
  induction m generalizing l with
  | nil => trivial
  | cons c m ih =>
    obtain ⟨hc, ht⟩ := List.forall_mem_cons.mp h
    exact ⟨hc _ _, ih ht _⟩

end Throughout

/-- A text ends in something that can be seen. -/
def EndsVisibly (cs : List Char) : Prop :=
  ∃ l c, cs = l ++ [c] ∧ IsVisible c

theorem EndsVisibly.append (h : EndsVisibly ds) (cs : List Char) : EndsVisibly (cs ++ ds) := by
  obtain ⟨l, c, rfl, hc⟩ := h
  exact ⟨cs ++ l, c, (List.append_assoc _ _ _).symm, hc⟩

theorem EndsVisibly.of_append (h : EndsVisibly (cs ++ ds)) (hd : ds ≠ []) : EndsVisibly ds := by
  obtain ⟨l, c, hl, hc⟩ := h
  obtain ⟨ds, d, rfl⟩ := (List.eq_nil_or_concat' ds).resolve_left hd
  rw [← List.append_assoc] at hl
  obtain rfl := List.singleton_inj.mp (List.append_inj_right' hl rfl)
  exact ⟨ds, d, rfl, hc⟩

/-- Two blanks for each array and object that is open, but for one that the line begins by
closing; then something that can be seen. -/
def Indented (l r : List Char) : Prop :=
  ∃ k c t, r = List.replicate (2 * k) ' ' ++ c :: t ∧ IsVisible c ∧
    LeavesOpen (l ++ List.replicate (2 * k) ' ') (if IsClosing c then k + 1 else k)

/-- A character of a text in lines: no control, or the line feed between two lines. -/
def Lined (l : List Char) (c : Char) (r : List Char) : Prop :=
  ' ' ≤ c ∨ c = '\n' ∧ Closed l ∧ EndsVisibly l ∧ Indented (l ++ ['\n']) r

/-- A text in lines that goes on after `l` and before `r`, to where so many arrays and objects
are open. -/
structure Continues (l m r : List Char) (depth : Nat) : Prop where
  lined : Throughout Lined l m r
  leavesOpen : LeavesOpen (l ++ m) depth

namespace Continues

theorem append (h : Continues l m (n ++ r) d) (h' : Continues (l ++ m) n r d') :
    Continues l (m ++ n) r d' := by
  refine ⟨h.lined.append h'.lined, ?_⟩
  rw [← List.append_assoc]
  exact h'.leavesOpen

theorem cons (hc : ' ' ≤ c) (h : Continues (l ++ [c]) m r d) : Continues l (c :: m) r d := by
  refine ⟨⟨.inl hc, h.lined⟩, ?_⟩
  rw [List.append_cons]
  exact h.leavesOpen

theorem of_forall (h : ∀ c ∈ m, ' ' ≤ c) (hl : LeavesOpen (l ++ m) d) (r : List Char) :
    Continues l m r d :=
  ⟨.of_forall (fun c hc _ _ => .inl (h c hc)) l r, hl⟩

theorem plain (h : LeavesOpen l d) (hm : ∀ c ∈ m, IsPlain c) (r : List Char) :
    Continues l m r d :=
  of_forall (fun c hc => Char.le_trans (by decide) (hm c hc).1.1) (h.plain hm) r

end Continues

theorem le_of_mem_unit {u : StringUnit} (h : c ∈ u.chars) : ' ' ≤ c := by
  cases u with
  | plain d =>
    obtain ⟨d, hd, _⟩ := d
    obtain rfl := List.mem_singleton.mp h
    exact UInt32.le_iff_toNat_le.mpr hd
  | short e =>
    cases e
    all_goals
      simp only [StringUnit.chars, ShortEscape.letter, List.mem_cons, List.not_mem_nil,
        or_false] at h
      obtain rfl | rfl := h
      all_goals decide
  | hex q =>
    have hd (d : HexDigit) : ' ' ≤ d.val := by
      obtain ⟨d, ⟨hd, -⟩ | ⟨hd, -⟩ | ⟨hd, -⟩⟩ := d
      all_goals exact Char.le_trans (by decide) hd
    simp only [StringUnit.chars, HexQuad.chars, List.mem_cons, List.not_mem_nil, or_false] at h
    obtain rfl | rfl | rfl | rfl | rfl | rfl := h
    · decide
    · decide
    all_goals exact hd _

theorem le_of_mem_literal (h : c ∈ literal s) : ' ' ≤ c := by
  obtain ⟨l, hl, -⟩ := exists_literal s
  rw [← hl, Literal.chars, List.mem_cons, List.mem_append, List.mem_singleton] at h
  obtain rfl | h | rfl := h
  · decide
  · obtain ⟨u, -, hu⟩ := List.mem_flatMap.mp h
    exact le_of_mem_unit hu
  · decide

theorem Continues.literal (h : LeavesOpen l d) (s : String) (r : List Char) :
    Continues l (literal s) r d :=
  .of_forall (fun _ => le_of_mem_literal) (h.literal s) r

theorem Continues.closing (h : LeavesOpen l (d + 1)) (hc : IsClosing c) (r : List Char) :
    Continues l [c] r d := by
  refine .of_forall (List.forall_mem_singleton.mpr ?_) (h.closing hc) r
  obtain rfl | rfl := hc
  · decide
  · decide

theorem Continues.line (h : LeavesOpen l d) (he : EndsVisibly l) (hr : r = c :: t)
    (hc : IsVisible c) (hd : d = if IsClosing c then k + 1 else k) :
    Continues l (Layout.indented.line k).unattach r d := by
  have hb := h.blanks (Layout.indented.line k)
  refine ⟨?_, hb⟩
  rw [Layout.unattach_indented_line] at hb ⊢
  have hi : Indented (l ++ ['\n']) (List.replicate (2 * k) ' ' ++ r) :=
    ⟨k, c, t, by rw [hr], hc, by rwa [← List.append_cons, ← hd]⟩
  refine ⟨.inr ⟨rfl, h.closed, he, hi⟩, .of_forall ?_ _ _⟩
  intro d hd _ _
  rw [List.eq_of_mem_replicate hd]
  exact .inl (by decide)

namespace Value

theorem starts_laidOut (f : Layout) (depth : Nat) {v : Value} (h : v.WellFormed) :
    ∃ c t, v.laidOut f depth = c :: t ∧ IsVisible c ∧ ¬ IsClosing c := by
  cases v with
  | null => exact ⟨_, _, rfl, by decide, by decide⟩
  | bool b =>
    cases b with
    | true => exact ⟨_, _, rfl, by decide, by decide⟩
    | false => exact ⟨_, _, rfl, by decide, by decide⟩
  | number text =>
    obtain ⟨n, hn⟩ := h
    obtain ⟨c, cs, hc, -⟩ := n.exists_first
    obtain ⟨hv, hp⟩ := n.isPlain c (by simp [hc])
    refine ⟨c, cs, by rw [laidOut, hn, hc], hv, ?_⟩
    rintro (rfl | rfl)
    · exact hp (by simp)
    · exact hp (by simp)
  | string s => exact ⟨_, _, rfl, by decide, by decide⟩
  | array vs =>
    cases vs with
    | nil => exact ⟨_, _, rfl, by decide, by decide⟩
    | cons v vs => exact ⟨_, _, rfl, by decide, by decide⟩
  | object ms =>
    cases ms with
    | nil => exact ⟨_, _, rfl, by decide, by decide⟩
    | cons m ms => exact ⟨_, _, rfl, by decide, by decide⟩

theorem ends_tailLaidOut (f : Layout) (depth : Nat) (vs : List Value) :
    EndsVisibly (tailLaidOut f depth vs) := by
  induction vs with
  | nil => exact ⟨_, _, rfl, by decide⟩
  | cons v vs ih => exact ((ih.append _).append _).append [',']

theorem ends_entriesLaidOut (f : Layout) (depth : Nat) (ms : List (String × Value)) :
    EndsVisibly (entriesLaidOut f depth ms) := by
  induction ms with
  | nil => exact ⟨_, _, rfl, by decide⟩
  | cons m ms ih => exact ((ih.append _).append _).append [',']

theorem ends_laidOut (f : Layout) (depth : Nat) {v : Value} (h : v.WellFormed) :
    EndsVisibly (v.laidOut f depth) := by
  cases v with
  | null => exact ⟨['n', 'u', 'l'], _, rfl, by decide⟩
  | bool b =>
    cases b with
    | true => exact ⟨['t', 'r', 'u'], _, rfl, by decide⟩
    | false => exact ⟨['f', 'a', 'l', 's'], _, rfl, by decide⟩
  | number text =>
    obtain ⟨n, hn⟩ := h
    obtain ⟨c, cs, hc, -⟩ := n.exists_first
    obtain ⟨l, d, hl⟩ := (List.eq_nil_or_concat' n.chars).resolve_left (by simp [hc])
    exact ⟨l, d, by rw [laidOut, hn, hl], (n.isPlain d (by simp [hl])).1⟩
  | string s => exact ⟨'"' :: s.toList.flatMap escape, '"', rfl, by decide⟩
  | array vs =>
    cases vs with
    | nil => exact ⟨['['], _, rfl, by decide⟩
    | cons v vs => exact (((ends_tailLaidOut f depth vs).append _).append _).append ['[']
  | object ms =>
    cases ms with
    | nil => exact ⟨['{'], _, rfl, by decide⟩
    | cons m ms => exact (((ends_entriesLaidOut f depth ms).append _).append _).append ['{']

theorem continues_label (h : LeavesOpen l d) (he : EndsVisibly l) (key : String)
    (r : List Char) :
    Continues l (Layout.indented.labelChars d key) r d := by
  have hline : Continues l (Layout.indented.line d).unattach
      ((literal key ++ (':' :: Layout.indented.colon.unattach)) ++ r) d :=
    .line h he rfl (by decide) rfl
  have hkey := Continues.literal hline.leavesOpen key
    ((':' :: Layout.indented.colon.unattach) ++ r)
  have hcolon := hkey.leavesOpen.mark (c := ':') (by decide)
  have hblank := hcolon.blanks Layout.indented.colon
  exact hline.append (hkey.append (.cons (by decide)
    (.of_forall (List.forall_mem_singleton.mpr (by decide)) hblank r)))

theorem continues_line {v : Value} (h : v.WellFormed) (hl : LeavesOpen l depth)
    (he : EndsVisibly l) (m r : List Char) :
    Continues l (Layout.indented.line depth).unattach
      ((v.laidOut .indented depth ++ m) ++ r) depth := by
  obtain ⟨c, t, hs, hc, hn⟩ := starts_laidOut .indented depth h
  have hr : (v.laidOut .indented depth ++ m) ++ r = c :: ((t ++ m) ++ r) := by
    rw [hs]
    rfl
  exact .line hl he hr hc (if_neg hn).symm

theorem continues_close (hl : LeavesOpen l (depth + 1)) (he : EndsVisibly l) (hc : IsClosing c)
    (r : List Char) :
    Continues l ((Layout.indented.line depth).unattach ++ [c]) r depth := by
  have hv : IsVisible c := by
    obtain rfl | rfl := hc
    · decide
    · decide
  have hline : Continues l (Layout.indented.line depth).unattach ([c] ++ r) (depth + 1) :=
    .line hl he rfl hv (if_pos hc).symm
  exact hline.append (.closing hline.leavesOpen hc r)

theorem continues_part {v : Value} (h : v.WellFormed)
    (hm : Continues l m ((v.laidOut .indented (depth + 1) ++ n) ++ r) (depth + 1))
    (hv : ∀ r, Continues (l ++ m) (v.laidOut .indented (depth + 1)) r (depth + 1))
    (hn : ∀ {l}, LeavesOpen l (depth + 1) → EndsVisibly l → Continues l n r depth) :
    Continues l (m ++ (v.laidOut .indented (depth + 1) ++ n)) r depth :=
  hm.append ((hv _).append
    (hn (hv []).leavesOpen ((ends_laidOut .indented (depth + 1) h).append _)))

mutual

theorem continues_laidOut {v : Value} (h : v.WellFormed) (hl : LeavesOpen l depth)
    (r : List Char) : Continues l (v.laidOut .indented depth) r depth := by
  match v with
  | .null => exact .plain hl isPlain_null r
  | .bool true => exact .plain hl (isPlain_bool true) r
  | .bool false => exact .plain hl (isPlain_bool false) r
  | .number text =>
    obtain ⟨n, hn⟩ := h
    rw [laidOut, hn]
    exact .plain hl n.isPlain r
  | .string s => exact .literal hl s r
  | .array [] => exact .cons (by decide) (.closing (hl.opening (.inl rfl)) (.inl rfl) r)
  | .array (v :: vs) =>
    have ho := hl.opening (.inl rfl : IsOpening '[')
    have hline := continues_line h.1 ho ⟨l, '[', rfl, by
      decide⟩ (tailLaidOut .indented depth vs) r
    exact .cons (by decide) (continues_part h.1 hline (continues_laidOut h.1 hline.leavesOpen)
      fun hl he => continues_tailLaidOut h.2 hl he r)
  | .object [] => exact .cons (by decide) (.closing (hl.opening (.inr rfl)) (.inr rfl) r)
  | .object ((key, v) :: ms) =>
    have ho := hl.opening (.inr rfl : IsOpening '{')
    have hlabel := continues_label ho ⟨l, '{', rfl, by decide⟩ key
      ((v.laidOut .indented (depth + 1) ++ entriesLaidOut .indented depth ms) ++ r)
    exact .cons (by decide) (continues_part h.1 hlabel (continues_laidOut h.1 hlabel.leavesOpen)
      fun hl he => continues_entriesLaidOut h.2 hl he r)

theorem continues_tailLaidOut {vs : List Value} (h : ItemsWellFormed vs)
    (hl : LeavesOpen l (depth + 1)) (he : EndsVisibly l) (r : List Char) :
    Continues l (tailLaidOut .indented depth vs) r depth := by
  match vs with
  | [] => exact continues_close hl he (.inl rfl) r
  | v :: vs =>
    have hc := hl.mark (c := ',') (by decide)
    have hline := continues_line h.1 hc ⟨l, ',', rfl, by
      decide⟩ (tailLaidOut .indented depth vs) r
    exact .cons (by decide) (continues_part h.1 hline (continues_laidOut h.1 hline.leavesOpen)
      fun hl he => continues_tailLaidOut h.2 hl he r)

theorem continues_entriesLaidOut {ms : List (String × Value)} (h : MembersWellFormed ms)
    (hl : LeavesOpen l (depth + 1)) (he : EndsVisibly l) (r : List Char) :
    Continues l (entriesLaidOut .indented depth ms) r depth := by
  match ms with
  | [] => exact continues_close hl he (.inr rfl) r
  | (key, v) :: ms =>
    have hc := hl.mark (c := ',') (by decide)
    have hlabel := continues_label hc ⟨l, ',', rfl, by decide⟩ key
      ((v.laidOut .indented (depth + 1) ++ entriesLaidOut .indented depth ms) ++ r)
    exact .cons (by decide) (continues_part h.1 hlabel (continues_laidOut h.1 hlabel.leavesOpen)
      fun hl he => continues_entriesLaidOut h.2 hl he r)

end

/-- In the indented form each line but the first begins as its place demands, and no line break
stands elsewhere. -/
theorem lined_prettyChars {v : Value} (h : v.WellFormed) :
    Throughout Lined [] v.prettyChars [] := by
  rw [v.prettyChars_eq]
  exact (continues_laidOut h .nil []).lined

end Value

theorem Indented.of_append (h : Indented l (line ++ r)) (hr : r = [] ∨ ∃ t, r = '\n' :: t) :
    Indented l line := by
  obtain ⟨k, c, t, ht, hc, ho⟩ := h
  have hne : c ≠ '\n' := by
    rintro rfl
    exact absurd hc (by decide)
  have hblank : '\n' ∉ List.replicate (2 * k) ' ' := by
    intro hm
    exact absurd (List.eq_of_mem_replicate hm) (by decide)
  obtain ⟨m, hm, rfl⟩ | ⟨m, rfl, hm⟩ := List.append_eq_append_iff.mp ht
  · -- the line would end among its blanks
    obtain hr | ⟨t', hr⟩ := hr
    · simp at hr
    · cases m with
      | nil => exact absurd (List.cons.inj hr).1 hne
      | cons d m =>
        obtain ⟨rfl, -⟩ := List.cons.inj hr
        exact absurd (by simp [hm]) hblank
  · cases m with
    | nil =>
      obtain rfl | ⟨t', rfl⟩ := hr
      · cases hm
      · exact absurd (List.cons.inj hm).1 hne
    | cons d m =>
      obtain ⟨rfl, -⟩ := List.cons.inj hm
      exact ⟨k, c, m, rfl, hc, ho⟩

theorem Indented.ne_nil (h : Indented l line) : line ≠ [] := by
  obtain ⟨k, c, t, rfl, -⟩ := h
  simp

section

variable {text : List Char} (h : Throughout Lined [] text [])
include h

theorem eq_lineFeed_of_control (ht : text = l ++ c :: r) (hc : c.toNat < 0x20) :
    c = '\n' ∧ Closed l := by
  subst ht
  obtain hs | ⟨hn, hl, -⟩ := h.at_place
  · exact absurd (UInt32.le_iff_toNat_le.mp hs) (Nat.not_le.mpr hc)
  · exact ⟨hn, hl⟩

theorem breaks_of_lineFeed (ht : text = l ++ '\n' :: r) :
    EndsVisibly l ∧ Indented (l ++ ['\n']) r := by
  subst ht
  obtain hs | ⟨-, -, he, hi⟩ := h.at_place
  · exact absurd hs (by decide)
  · rw [List.append_nil] at hi
    exact ⟨he, hi⟩

theorem line_of_split (hs : ∃ c t, text = c :: t ∧ IsVisible c ∧ ¬ IsClosing c)
    (he : EndsVisibly text) (hsplit : SchemaSnapshot.Text.split (· = '\n') text =
      ls ++ line :: rs) :
    EndsVisibly line ∧ Indented (ls.flatMap (· ++ ['\n'])) line := by
  obtain ⟨r, ht, -, hr⟩ := SchemaSnapshot.Text.eq_of_split hsplit
  replace hr : r = [] ∨ ∃ t, r = '\n' :: t := hr.imp And.right id
  have hi : Indented (ls.flatMap (· ++ ['\n'])) line := by
    refine .of_append ?_ hr
    obtain rfl | ⟨ls, l, rfl⟩ := List.eq_nil_or_concat' ls
    · obtain ⟨c, t, hc, hv, hn⟩ := hs
      refine ⟨0, c, t, ht.symm.trans hc, hv, ?_⟩
      rw [if_neg hn]
      exact .nil
    · have hl : (ls ++ [l]).flatMap (· ++ ['\n']) =
        (ls.flatMap (· ++ ['\n']) ++ l) ++ ['\n'] := by
        simp
      rw [hl, List.append_assoc] at ht
      rw [hl]
      exact (breaks_of_lineFeed h ht).2
  refine ⟨?_, hi⟩
  obtain rfl | ⟨t, rfl⟩ := hr
  · rw [ht, List.append_nil] at he
    exact he.of_append hi.ne_nil
  · rw [← List.append_assoc] at ht
    exact (breaks_of_lineFeed h ht).1.of_append hi.ne_nil

end

end SchemaSnapshot.Json
