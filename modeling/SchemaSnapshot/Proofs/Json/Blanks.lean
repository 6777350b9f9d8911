import SchemaSnapshot.Proofs.Json.Printer
import SchemaSnapshot.Proofs.Text.Ascii

namespace SchemaSnapshot.Json
open Grammar

/-- Where a text stands: outside of its string literals, in one of them, or there after a
backslash that begins an escape. -/
inductive Stand where
  | outside
  | inside
  | escaped
  deriving DecidableEq

namespace Stand

def next : Stand → Char → Stand
  | .outside, c => if c = '"' then .inside else .outside
  | .inside, c => if c = '"' then .outside else if c = '\\' then .escaped else .inside
  | .escaped, _ => .inside

def after (s : Stand) (cs : List Char) : Stand :=
  cs.foldl next s

/-- Each character with whether it stands outside; the quote that begins a literal still does.
-/
def marked (s : Stand) : List Char → List (Char × Bool)
  | [] => []
  | c :: r => (c, s = .outside) :: (s.next c).marked r

theorem after_append (s : Stand) (cs ds : List Char) :
    s.after (cs ++ ds) = (s.after cs).after ds :=
  List.foldl_append

theorem marked_append (s : Stand) (cs ds : List Char) :
    s.marked (cs ++ ds) = s.marked cs ++ (s.after cs).marked ds := by
  induction cs generalizing s with
  | nil => rfl
  | cons c cs ih =>
    rw [List.cons_append, marked, marked, ih]
    rfl

end Stand

def bareOf (ms : List (Char × Bool)) : List Char :=
  (ms.filter Prod.snd).map Prod.fst

/-- The characters outside of string literals. -/
def bare (cs : List Char) : List Char :=
  bareOf (Stand.outside.marked cs)

def keptOf (ms : List (Char × Bool)) : List Char :=
  (ms.filter fun m => !(m.2 && decide (IsBlank m.1))).map Prod.fst

/-- The text without the blanks outside of string literals. -/
def withoutBlanks (cs : List Char) : List Char :=
  keptOf (Stand.outside.marked cs)

/-- The string literals that begin in a text end there. -/
def Closed (cs : List Char) : Prop :=
  Stand.outside.after cs = .outside

instance (cs : List Char) : Decidable (Closed cs) := inferInstanceAs (Decidable (_ = _))

theorem not_isBlank (h : IsVisible c) : ¬ IsBlank c := by
  rintro (rfl | rfl | rfl | rfl) <;> exact absurd h (by decide)

theorem Closed.append (h : Closed cs) (h' : Closed ds) : Closed (cs ++ ds) := by
  rw [Closed, Stand.after_append, h]
  exact h'

theorem bare_append (h : Closed cs) (ds : List Char) :
    bare (cs ++ ds) = bare cs ++ bare ds := by
  rw [bare, Stand.marked_append, h, bareOf, List.filter_append, List.map_append]
  rfl

theorem withoutBlanks_append (h : Closed cs) (ds : List Char) :
    withoutBlanks (cs ++ ds) = withoutBlanks cs ++ withoutBlanks ds := by
  rw [withoutBlanks, Stand.marked_append, h, keptOf, List.filter_append, List.map_append]
  rfl

/-- Blanks taken out of a text do not change where the rest of it stands. -/
theorem bareOf_marked_keptOf (s : Stand) (cs : List Char) :
    bareOf (s.marked (keptOf (s.marked cs))) =
      (bareOf (s.marked cs)).filter fun c => ¬ IsBlank c := by
  induction cs generalizing s with
  | nil => rfl
  | cons c cs ih =>
    by_cases hs : s = .outside
    · subst hs
      by_cases hc : IsBlank c
      · have hq : c ≠ '"' := by
          rintro rfl
          exact absurd hc (by decide)
        have hn : Stand.outside.next c = .outside := if_neg hq
        have ht := ih .outside
        simp_all [Stand.marked, keptOf, bareOf]
      · have ht := ih (Stand.outside.next c)
        simp_all [Stand.marked, keptOf, bareOf]
    · have ht := ih (s.next c)
      simp_all [Stand.marked, keptOf, bareOf]

theorem bare_withoutBlanks (cs : List Char) :
    bare (withoutBlanks cs) = (bare cs).filter fun c => ¬ IsBlank c :=
  bareOf_marked_keptOf .outside cs

/-- Taking the blanks out of one text gives the other, and no characters but these blanks and
visible ones stand outside of string literals. -/
structure Erases (cs ds : List Char) : Prop where
  closed : Closed cs
  withoutBlanks : withoutBlanks cs = ds
  bare : ∀ c ∈ bare cs, IsBlank c ∨ IsVisible c

namespace Erases

theorem nil : Erases [] [] :=
  ⟨rfl, rfl, fun _ h => absurd h List.not_mem_nil⟩

theorem append (h : Erases cs ds) (h' : Erases cs' ds') : Erases (cs ++ cs') (ds ++ ds') where
  closed := h.closed.append h'.closed
  withoutBlanks := by rw [withoutBlanks_append h.closed, h.withoutBlanks, h'.withoutBlanks]
  bare := by
    rw [bare_append h.closed, List.forall_mem_append]
    exact ⟨h.bare, h'.bare⟩

theorem blank (h : IsBlank c) : Erases [c] [] := by
  have hq : c ≠ '"' := by
    rintro rfl
    exact absurd h (by decide)
  refine ⟨if_neg hq, by simp [Json.withoutBlanks, keptOf, Stand.marked, h], ?_⟩
  intro d hd
  obtain rfl : d = c := by simpa [Json.bare, bareOf, Stand.marked] using hd
  exact .inl h

theorem visible (h : IsVisible c) (hq : c ≠ '"') : Erases [c] [c] := by
  refine ⟨if_neg hq, by simp [Json.withoutBlanks, keptOf, Stand.marked, not_isBlank h], ?_⟩
  intro d hd
  obtain rfl : d = c := by simpa [Json.bare, bareOf, Stand.marked] using hd
  exact .inr h

theorem cons (h : IsVisible c) (hq : c ≠ '"') (ht : Erases cs ds) :
    Erases (c :: cs) (c :: ds) :=
  (visible h hq).append ht

theorem blanks (bs : List Blank) : Erases bs.unattach [] := by
  induction bs with
  | nil => exact nil
  | cons b bs ih => exact (blank b.property).append ih

end Erases

/-- Nothing in a literal but its last quote ends it. -/
theorem StringUnit.stays_inside (u : StringUnit) :
    Stand.inside.after u.chars = .inside ∧
      Stand.inside.marked u.chars = u.chars.map fun c => (c, false) := by
  cases u with
  | plain c =>
    obtain ⟨c, -, hq, hb⟩ := c
    simp [StringUnit.chars, Stand.after, Stand.marked, Stand.next, hq, hb]
  | short e => exact ⟨rfl, rfl⟩
  | hex q =>
    have hd (d : HexDigit) : Stand.inside.next d.val = .inside := by
      obtain ⟨d, hd⟩ := d
      have hq : d ≠ '"' := by
        rintro rfl
        exact absurd hd (by decide)
      have hb : d ≠ '\\' := by
        rintro rfl
        exact absurd hd (by decide)
      simp [Stand.next, hq, hb]
    have hu : Stand.escaped.next 'u' = .inside := rfl
    have hb : Stand.inside.next '\\' = .escaped := rfl
    simp [StringUnit.chars, HexQuad.chars, Stand.after, Stand.marked, hd, hu, hb]

theorem Literal.body_stays_inside (l : Literal) :
    Stand.inside.after l.body = .inside ∧
      Stand.inside.marked l.body = l.body.map fun c => (c, false) := by
  induction l with
  | nil => exact ⟨rfl, rfl⟩
  | cons u l ih =>
    obtain ⟨ha, hm⟩ := StringUnit.stays_inside u
    rw [Literal.body_cons, Stand.after_append, Stand.marked_append, ha, hm, ih.1, ih.2,
      List.map_append]
    exact ⟨rfl, rfl⟩

theorem marked_literal (s : String) :
    ∃ r, literal s = '"' :: r ∧ Closed (literal s) ∧
      Stand.outside.marked (literal s) = ('"', true) :: r.map fun c => (c, false) := by
  obtain ⟨l, hl, -⟩ := exists_literal s
  obtain ⟨ha, hm⟩ := Literal.body_stays_inside l
  rw [← hl]
  refine ⟨l.body ++ ['"'], rfl, ?_, ?_⟩
  · show Stand.inside.after _ = _
    rw [Stand.after_append, ha]
    rfl
  · show _ :: Stand.inside.marked _ = _
    rw [Stand.marked_append, ha, hm, List.map_append]
    rfl

theorem bare_literal (s : String) : bare (literal s) = ['"'] := by
  obtain ⟨r, -, -, hm⟩ := marked_literal s
  simp [bare, hm, bareOf]

theorem Erases.literal (s : String) : Erases (literal s) (literal s) := by
  obtain ⟨r, hr, hw, hm⟩ := marked_literal s
  refine ⟨hw, ?_, ?_⟩
  · have hq : ¬ IsBlank '"' := by decide
    rw [Json.withoutBlanks, hm, hr]
    simp [keptOf, hq, List.filter_map, Function.comp_def]
  · rw [bare_literal]
    exact List.forall_mem_singleton.mpr (.inr (by decide))

/-- A character of a number or of a word. -/
def IsPlain (c : Char) : Prop :=
  IsVisible c ∧ c ∉ ['"', ',', ':', '[', ']', '{', '}']

instance : DecidablePred IsPlain := fun _ => inferInstanceAs (Decidable (_ ∧ _))

theorem isPlain_null : ∀ c ∈ "null".toList, IsPlain c :=
  forall_mem_of_all rfl

theorem isPlain_bool (b : Bool) : ∀ c ∈ (if b then "true" else "false").toList, IsPlain c := by
  cases b with
  | true => exact forall_mem_of_all rfl
  | false => exact forall_mem_of_all rfl

namespace Grammar

theorem Digit.isPlain (d : Digit) : IsPlain d.val := by
  obtain ⟨c, hc, hc'⟩ := d
  refine ⟨⟨Char.le_trans (by decide) hc, Char.le_trans hc' (by decide)⟩, ?_⟩
  intro h
  simp only [List.mem_cons, List.not_mem_nil, or_false] at h
  obtain rfl | rfl | rfl | rfl | rfl | rfl | rfl := h
  all_goals exact absurd (And.intro hc hc') (by decide)

theorem isPlain_of_mem_digits {ds : List Digit} (h : c ∈ ds.unattach) : IsPlain c := by
  obtain ⟨hc, _⟩ := List.mem_unattach.mp h
  exact Digit.isPlain ⟨c, hc⟩

theorem Digits.isPlain (ds : Digits) : ∀ c ∈ ds.chars, IsPlain c :=
  List.forall_mem_cons.mpr ⟨Digit.isPlain ds.first, fun _ => isPlain_of_mem_digits⟩

theorem Whole.isPlain (w : Whole) : ∀ c ∈ w.chars, IsPlain c := by
  cases w with
  | zero => exact List.forall_mem_singleton.mpr (by decide)
  | nonzero first rest =>
    obtain ⟨d, hd, hd'⟩ := first
    have hfirst : IsPlain d := Digit.isPlain ⟨d, Char.le_trans (by decide) hd, hd'⟩
    exact List.forall_mem_cons.mpr ⟨hfirst, fun _ => isPlain_of_mem_digits⟩

theorem Exponent.isPlain (e : Exponent) : ∀ c ∈ e.chars, IsPlain c := by
  obtain ⟨⟨mark, hm⟩, sign, digits⟩ := e
  refine List.forall_mem_cons.mpr ⟨?_, List.forall_mem_append.mpr ⟨?_, digits.isPlain⟩⟩
  · obtain rfl | rfl := hm
    · exact (by decide : IsPlain 'e')
    · exact (by decide : IsPlain 'E')
  · cases sign with
    | none => exact fun c hc => absurd hc List.not_mem_nil
    | some c =>
      obtain ⟨c, rfl | rfl⟩ := c
      · exact List.forall_mem_singleton.mpr (by decide)
      · exact List.forall_mem_singleton.mpr (by decide)

theorem Numeral.isPlain (n : Numeral) : ∀ c ∈ n.chars, IsPlain c := by
  obtain ⟨b, w, f, e⟩ := n
  simp only [Numeral.chars, mantissa, List.forall_mem_append]
  refine ⟨⟨?_, w.isPlain, ?_⟩, ?_⟩
  · cases b with
    | true => exact List.forall_mem_singleton.mpr (by decide)
    | false => exact fun c hc => absurd hc List.not_mem_nil
  · cases f with
    | none => exact fun c hc => absurd hc List.not_mem_nil
    | some ds => exact List.forall_mem_cons.mpr ⟨by decide, ds.isPlain⟩
  · cases e with
    | none => exact fun c hc => absurd hc List.not_mem_nil
    | some e => exact e.isPlain

end Grammar

theorem Erases.plain (h : ∀ c ∈ cs, IsPlain c) : Erases cs cs := by
  induction cs with
  | nil => exact .nil
  | cons c cs ih =>
    obtain ⟨hc, ht⟩ := List.forall_mem_cons.mp h
    exact .cons hc.1 (fun hq => hc.2 (by simp [hq])) (ih ht)

namespace Value

theorem erases_label (f : Layout) (depth : Nat) (key : String) :
    Erases (f.labelChars depth key) (Layout.tight.labelChars depth key) :=
  .append (.blanks _) (.append (.literal key) (.cons (by decide) (by decide) (.blanks _)))

mutual

theorem erases_laidOut (f : Layout) (depth : Nat) {v : Value} (h : v.WellFormed) :
    Erases (v.laidOut f depth) (v.laidOut .tight depth) := by
  match v with
  | .null => exact .plain isPlain_null
  | .bool true => exact .plain (isPlain_bool true)
  | .bool false => exact .plain (isPlain_bool false)
  | .number text =>
    obtain ⟨n, hn⟩ := h
    rw [laidOut, laidOut, hn]
    exact .plain n.isPlain
  | .string s => exact .literal s
  | .array [] => exact .cons (by decide) (by decide) (.cons (by decide) (by decide) .nil)
  | .array (v :: vs) =>
    have hv := erases_laidOut f (depth + 1) h.1
    have ht := erases_tailLaidOut f depth h.2
    exact .cons (by decide) (by decide) (.append (.blanks _) (hv.append ht))
  | .object [] => exact .cons (by decide) (by decide) (.cons (by decide) (by decide) .nil)
  | .object ((key, v) :: ms) =>
    have hv := erases_laidOut f (depth + 1) h.1
    have ht := erases_entriesLaidOut f depth h.2
    exact .cons (by decide) (by decide) ((erases_label f (depth + 1) key).append (hv.append ht))

theorem erases_tailLaidOut (f : Layout) (depth : Nat) {vs : List Value}
    (h : ItemsWellFormed vs) :
    Erases (tailLaidOut f depth vs) (tailLaidOut .tight depth vs) := by
  match vs with
  | [] => exact .append (.blanks _) (.cons (by decide) (by decide) .nil)
  | v :: vs =>
    have hv := erases_laidOut f (depth + 1) h.1
    have ht := erases_tailLaidOut f depth h.2
    exact .cons (by decide) (by decide) (.append (.blanks _) (hv.append ht))

theorem erases_entriesLaidOut (f : Layout) (depth : Nat) {ms : List (String × Value)}
    (h : MembersWellFormed ms) :
    Erases (entriesLaidOut f depth ms) (entriesLaidOut .tight depth ms) := by
  match ms with
  | [] => exact .append (.blanks _) (.cons (by decide) (by decide) .nil)
  | (key, v) :: ms =>
    have hv := erases_laidOut f (depth + 1) h.1
    have ht := erases_entriesLaidOut f depth h.2
    exact .cons (by decide) (by decide) ((erases_label f (depth + 1) key).append (hv.append ht))

end

/-- Whatever its layout, without its blanks a document is what it is in compact form. -/
theorem withoutBlanks_laidOut (f : Layout) (depth : Nat) {v : Value} (h : v.WellFormed) :
    withoutBlanks (v.laidOut f depth) = v.compactChars := by
  rw [(erases_laidOut f depth h).withoutBlanks, v.compactChars_eq depth]

/-- Outside of its strings, the compact form has no blanks of any kind. -/
theorem isVisible_of_mem_bare {v : Value} (h : v.WellFormed) :
    ∀ c ∈ bare v.compactChars, IsVisible c := by
  have he := erases_laidOut .tight 0 h
  rw [v.compactChars_eq 0]
  intro c hc
  rw [← he.withoutBlanks, bare_withoutBlanks, List.mem_filter, decide_eq_true_eq] at hc
  exact (he.bare c hc.1).resolve_left hc.2

end Value

end SchemaSnapshot.Json
