import SchemaSnapshot.Proofs.Json.Literal

namespace SchemaSnapshot.Json.Grammar

/-- These characters do not begin with such a one. -/
def Apart (p : Char → Prop) (cs : List Char) : Prop :=
  ∀ c ∈ cs.head?, ¬ p c

theorem apart_cons (h : ¬ p c) (cs : List Char) : Apart p (c :: cs) := by
  intro d hd
  obtain rfl := Option.some.inj hd
  exact h

theorem Apart.mono (h : Apart p cs) (hq : ∀ c, q c → p c) : Apart q cs :=
  fun c hc hqc => h c hc (hq c hqc)

theorem unattach_append_inj {p : Char → Prop} {xs ys : List {c : Char // p c}}
    (h : xs.unattach ++ r = ys.unattach ++ s) (hr : Apart p r) (hs : Apart p s) :
    xs = ys ∧ r = s := by
  induction xs generalizing ys with
  | nil =>
    cases ys with
    | nil => exact ⟨rfl, h⟩
    | cons y ys =>
      obtain rfl : r = y.val :: (ys.unattach ++ s) := h
      exact absurd y.property (hr y.val rfl)
  | cons x xs ih =>
    cases ys with
    | nil =>
      obtain rfl : x.val :: (xs.unattach ++ r) = s := h
      exact absurd x.property (hs x.val rfl)
    | cons y ys =>
      obtain ⟨hxy, ht⟩ := List.cons.inj h
      obtain ⟨rfl, hrs⟩ := ih ht
      obtain rfl := Subtype.ext hxy
      exact ⟨rfl, hrs⟩

def IsBlank (c : Char) : Prop := c = ' ' ∨ c = '\t' ∨ c = '\n' ∨ c = '\r'

def IsDigit (c : Char) : Prop := '0' ≤ c ∧ c ≤ '9'

instance : DecidablePred IsBlank := fun _ => inferInstanceAs (Decidable (_ ∨ _))

instance : DecidablePred IsDigit := fun _ => inferInstanceAs (Decidable (_ ∧ _))

/-- The mantissa of a number may go on with this character. -/
def LengthensMantissa (c : Char) : Prop := IsDigit c ∨ c = '.'

def LengthensNumber (c : Char) : Prop := LengthensMantissa c ∨ c = 'e' ∨ c = 'E'

instance : DecidablePred LengthensMantissa := fun _ => inferInstanceAs (Decidable (_ ∨ _))

instance : DecidablePred LengthensNumber := fun _ => inferInstanceAs (Decidable (_ ∨ _))

theorem Digits.chars_append_inj {ds es : Digits} (h : ds.chars ++ r = es.chars ++ s)
    (hr : Apart IsDigit r) (hs : Apart IsDigit s) : ds = es ∧ r = s := by
  obtain ⟨d, ds⟩ := ds
  obtain ⟨e, es⟩ := es
  obtain ⟨hd, ht⟩ := List.cons.inj h
  obtain ⟨rfl, hrs⟩ := unattach_append_inj ht hr hs
  obtain rfl := Subtype.ext hd
  exact ⟨rfl, hrs⟩

theorem NonzeroDigit.ne_zero (d : NonzeroDigit) : '0' ≠ d.val := by
  obtain ⟨c, hc, _⟩ := d
  rintro rfl
  exact absurd hc (by decide)

theorem Whole.chars_append_inj {v w : Whole} (h : v.chars ++ r = w.chars ++ s)
    (hr : Apart IsDigit r) (hs : Apart IsDigit s) : v = w ∧ r = s := by
  cases v with
  | zero =>
    cases w with
    | zero => exact ⟨rfl, (List.cons.inj h).2⟩
    | nonzero e es => exact absurd (List.cons.inj h).1 e.ne_zero
  | nonzero d ds =>
    cases w with
    | zero => exact absurd (List.cons.inj h).1.symm d.ne_zero
    | nonzero e es =>
      obtain ⟨hd, ht⟩ := List.cons.inj h
      obtain ⟨rfl, hrs⟩ := unattach_append_inj ht hr hs
      obtain rfl := Subtype.ext hd
      exact ⟨rfl, hrs⟩

theorem fractionChars_append_inj (h : fractionChars f ++ r = fractionChars g ++ s)
    (hr : Apart LengthensMantissa r) (hs : Apart LengthensMantissa s) : f = g ∧ r = s := by
  cases f with
  | none =>
    cases g with
    | none => exact ⟨rfl, h⟩
    | some es =>
      obtain rfl : r = '.' :: (es.chars ++ s) := h
      exact absurd (.inr rfl) (hr '.' rfl)
  | some ds =>
    cases g with
    | none =>
      obtain rfl : '.' :: (ds.chars ++ r) = s := h
      exact absurd (.inr rfl) (hs '.' rfl)
    | some es =>
      obtain ⟨rfl, hrs⟩ := Digits.chars_append_inj (List.cons.inj h).2 (hr.mono fun _ => .inl)
        (hs.mono fun _ => .inl)
      exact ⟨rfl, hrs⟩

theorem Sign.ne_digit (c : Sign) (d : Digit) : c.val ≠ d.val := by
  obtain ⟨d, hd, _⟩ := d
  obtain ⟨c, rfl | rfl⟩ := c
  · rintro rfl
    exact absurd hd (by decide)
  · rintro rfl
    exact absurd hd (by decide)

theorem Exponent.chars_append_inj {e f : Exponent} (h : e.chars ++ r = f.chars ++ s)
    (hr : Apart IsDigit r) (hs : Apart IsDigit s) : e = f ∧ r = s := by
  obtain ⟨m, c, ds⟩ := e
  obtain ⟨n, d, es⟩ := f
  obtain ⟨hm, ht⟩ := List.cons.inj h
  obtain rfl := Subtype.ext hm
  cases c with
  | none =>
    cases d with
    | none =>
      obtain ⟨rfl, hrs⟩ := Digits.chars_append_inj ht hr hs
      exact ⟨rfl, hrs⟩
    | some d => exact absurd (List.cons.inj ht).1.symm (d.ne_digit ds.first)
  | some c =>
    cases d with
    | none => exact absurd (List.cons.inj ht).1 (c.ne_digit es.first)
    | some d =>
      obtain ⟨hc, hds⟩ := List.cons.inj ht
      obtain rfl := Subtype.ext hc
      obtain ⟨rfl, hrs⟩ := Digits.chars_append_inj hds hr hs
      exact ⟨rfl, hrs⟩

theorem exponentChars_append_inj (h : exponentChars e ++ r = exponentChars f ++ s)
    (hr : Apart LengthensNumber r) (hs : Apart LengthensNumber s) : e = f ∧ r = s := by
  cases e with
  | none =>
    cases f with
    | none => exact ⟨rfl, h⟩
    | some f =>
      obtain rfl : r = f.mark.val :: (f.sign.toList.unattach ++ f.digits.chars ++ s) := h
      exact absurd (.inr f.mark.property) (hr f.mark.val rfl)
  | some e =>
    cases f with
    | none =>
      obtain rfl : e.mark.val :: (e.sign.toList.unattach ++ e.digits.chars ++ r) = s := h
      exact absurd (.inr e.mark.property) (hs e.mark.val rfl)
    | some f =>
      have hd : ∀ c, IsDigit c → LengthensNumber c := fun c hc => .inl (.inl hc)
      obtain ⟨rfl, hrs⟩ := Exponent.chars_append_inj h (hr.mono hd) (hs.mono hd)
      exact ⟨rfl, hrs⟩

theorem apart_exponentChars (e : Option Exponent) (hr : Apart LengthensNumber r) :
    Apart LengthensMantissa (exponentChars e ++ r) := by
  cases e with
  | none => exact hr.mono fun _ => .inl
  | some e =>
    apply apart_cons
    obtain ⟨c, rfl | rfl⟩ := e.mark
    · decide
    · decide

theorem apart_fractionChars (f : Option Digits) (hr : Apart LengthensMantissa r) :
    Apart IsDigit (fractionChars f ++ r) := by
  cases f with
  | none => exact hr.mono fun _ => .inl
  | some ds => exact apart_cons (by decide) _

theorem apart_whole (w : Whole) (r : List Char) : Apart (· = '-') (w.chars ++ r) := by
  cases w with
  | zero => exact apart_cons (by decide) _
  | nonzero d ds =>
    apply apart_cons
    obtain ⟨c, hc, _⟩ := d
    rintro rfl
    exact absurd hc (by decide)

theorem minusChars_append_inj (h : minusChars b ++ r = minusChars c ++ s)
    (hr : Apart (· = '-') r) (hs : Apart (· = '-') s) : b = c ∧ r = s := by
  cases b with
  | false =>
    cases c with
    | false => exact ⟨rfl, h⟩
    | true =>
      obtain rfl : r = '-' :: s := h
      exact absurd rfl (hr '-' rfl)
  | true =>
    cases c with
    | false =>
      obtain rfl : '-' :: r = s := h
      exact absurd rfl (hs '-' rfl)
    | true => exact ⟨rfl, (List.cons.inj h).2⟩

theorem Numeral.chars_append_inj {n m : Numeral} (h : n.chars ++ r = m.chars ++ s)
    (hr : Apart LengthensNumber r) (hs : Apart LengthensNumber s) : n = m ∧ r = s := by
  obtain ⟨b, w, f, e⟩ := n
  obtain ⟨b', w', f', e'⟩ := m
  simp only [Numeral.chars, mantissa, List.append_assoc] at h
  obtain ⟨rfl, hw⟩ := minusChars_append_inj h (apart_whole w _) (apart_whole w' _)
  obtain ⟨rfl, hf⟩ :=
    Whole.chars_append_inj hw (apart_fractionChars f (apart_exponentChars e hr))
    (apart_fractionChars f' (apart_exponentChars e' hs))
  obtain ⟨rfl, he⟩ := fractionChars_append_inj hf (apart_exponentChars e hr)
    (apart_exponentChars e' hs)
  obtain ⟨rfl, hrs⟩ := exponentChars_append_inj he hr hs
  exact ⟨rfl, hrs⟩

theorem apart_nil (p : Char → Prop) : Apart p [] := by
  intro c hc
  cases hc

theorem Numeral.chars_injective : Function.Injective Numeral.chars := by
  intro n m h
  have h' : n.chars ++ [] = m.chars ++ [] := congrArg (· ++ []) h
  exact (Numeral.chars_append_inj h' (apart_nil _) (apart_nil _)).1

theorem ShortEscape.letter_injective : Function.Injective ShortEscape.letter := by
  intro e f h
  cases e <;> cases f <;> first | rfl | exact absurd h (by decide)

theorem ShortEscape.letter_ne (e : ShortEscape) : e.letter ≠ 'u' := by
  cases e with
  | _ => decide

theorem HexQuad.chars_append_inj {q q' : HexQuad} (h : q.chars ++ r = q'.chars ++ s) :
    q = q' ∧ r = s := by
  obtain ⟨a, b, c, d⟩ := q
  obtain ⟨a', b', c', d'⟩ := q'
  simp only [HexQuad.chars, List.cons_append, List.nil_append, List.cons.injEq] at h
  obtain ⟨ha, hb, hc, hd, hrs⟩ := h
  refine ⟨?_, hrs⟩
  rw [Subtype.ext ha, Subtype.ext hb, Subtype.ext hc, Subtype.ext hd]

theorem StringUnit.chars_append_inj {u v : StringUnit} (h : u.chars ++ r = v.chars ++ s) :
    u = v ∧ r = s := by
  cases u with
  | plain c =>
    cases v with
    | plain d =>
      obtain ⟨hc, hrs⟩ := List.cons.inj h
      obtain rfl := Subtype.ext hc
      exact ⟨rfl, hrs⟩
    | short f => exact absurd (List.cons.inj h).1 c.property.2.2
    | hex q => exact absurd (List.cons.inj h).1 c.property.2.2
  | short e =>
    cases v with
    | plain d => exact absurd (List.cons.inj h).1.symm d.property.2.2
    | short f =>
      obtain ⟨he, hrs⟩ := List.cons.inj (List.cons.inj h).2
      obtain rfl := ShortEscape.letter_injective he
      exact ⟨rfl, hrs⟩
    | hex q => exact absurd (List.cons.inj (List.cons.inj h).2).1 e.letter_ne
  | hex q =>
    cases v with
    | plain d => exact absurd (List.cons.inj h).1.symm d.property.2.2
    | short f => exact absurd (List.cons.inj (List.cons.inj h).2).1.symm f.letter_ne
    | hex q' =>
      obtain ⟨rfl, hrs⟩ := HexQuad.chars_append_inj (List.cons.inj (List.cons.inj h).2).2
      exact ⟨rfl, hrs⟩

theorem StringUnit.ne_quote (u : StringUnit) (r s : List Char) : '"' :: r ≠ u.chars ++ s := by
  intro h
  have hc := congrArg List.head? h
  cases u with
  | plain c => exact c.property.2.1 (Option.some.inj hc).symm
  | short e => exact absurd hc (by simp [StringUnit.chars])
  | hex q => exact absurd hc (by simp [StringUnit.chars])

theorem Literal.body_append_inj {l m : Literal} (h : l.body ++ '"' :: r = m.body ++ '"' :: s) :
    l = m ∧ r = s := by
  induction l generalizing m with
  | nil =>
    cases m with
    | nil => exact ⟨rfl, (List.cons.inj h).2⟩
    | cons v m =>
      rw [body_cons, List.append_assoc] at h
      exact absurd h (v.ne_quote _ _)
  | cons u l ih =>
    cases m with
    | nil =>
      rw [body_cons, List.append_assoc] at h
      exact absurd h.symm (u.ne_quote _ _)
    | cons v m =>
      rw [body_cons, body_cons, List.append_assoc, List.append_assoc] at h
      obtain ⟨rfl, ht⟩ := StringUnit.chars_append_inj h
      obtain ⟨rfl, hrs⟩ := ih ht
      exact ⟨rfl, hrs⟩

theorem Literal.chars_append_inj {l m : Literal} (h : l.chars ++ r = m.chars ++ s) :
    l = m ∧ r = s := by
  simp only [Literal.chars, List.cons_append, List.append_assoc] at h
  exact Literal.body_append_inj (List.cons.inj h).2

theorem Label.chars_append_inj {l m : Label} (h : l.chars ++ r = m.chars ++ s)
    (hr : Apart IsBlank r) (hs : Apart IsBlank s) : l = m ∧ r = s := by
  obtain ⟨before, key, beforeColon, afterColon⟩ := l
  obtain ⟨before', key', beforeColon', afterColon'⟩ := m
  have hq (x : List Char) : Apart IsBlank ('"' :: x) := apart_cons (by decide) x
  have hc (x : List Char) : Apart IsBlank (':' :: x) := apart_cons (by decide) x
  simp only [Label.chars, List.append_assoc, List.cons_append] at h
  obtain ⟨rfl, hk⟩ := unattach_append_inj h (hq _) (hq _)
  obtain ⟨rfl, hb⟩ := Literal.chars_append_inj hk
  obtain ⟨rfl, ha⟩ := unattach_append_inj hb (hc _) (hc _)
  obtain ⟨rfl, hrs⟩ := unattach_append_inj (List.cons.inj ha).2 hr hs
  exact ⟨rfl, hrs⟩

/-- What a value is can be seen from its first character. -/
inductive Kind where
  | null
  | bool (b : Bool)
  | number
  | string
  | array
  | object

def Kind.ofFirst? (c : Char) : Option Kind :=
  if c = '-' ∨ IsDigit c then some .number
  else if c = 'n' then some .null
  else if c = 't' then some (.bool true)
  else if c = 'f' then some (.bool false)
  else if c = '"' then some .string
  else if c = '[' then some .array
  else if c = '{' then some .object
  else none

def Node.kind : Node → Kind
  | .null => .null
  | .bool b => .bool b
  | .number _ => .number
  | .string _ => .string
  | .emptyArray _ | .array .. => .array
  | .emptyObject _ | .object .. => .object

theorem Numeral.exists_first (n : Numeral) :
    ∃ c cs, n.chars = c :: cs ∧ (c = '-' ∨ IsDigit c) := by
  obtain ⟨b, w, f, e⟩ := n
  cases b with
  | true => exact ⟨'-', _, rfl, .inl rfl⟩
  | false =>
    cases w with
    | zero => exact ⟨'0', _, rfl, .inr (by decide)⟩
    | nonzero d ds =>
      exact ⟨d.val, _, rfl, .inr ⟨Char.le_trans (by decide) d.property.1, d.property.2⟩⟩

theorem Node.exists_first (n : Node) :
    ∃ c cs, n.chars = c :: cs ∧ Kind.ofFirst? c = some n.kind := by
  cases n with
  | null => exact ⟨'n', _, rfl, rfl⟩
  | bool b =>
    cases b with
    | true => exact ⟨'t', _, rfl, rfl⟩
    | false => exact ⟨'f', _, rfl, rfl⟩
  | number n =>
    obtain ⟨c, cs, hn, hc⟩ := n.exists_first
    exact ⟨c, cs, hn, if_pos hc⟩
  | string l => exact ⟨'"', _, rfl, rfl⟩
  | emptyArray inside => exact ⟨'[', _, rfl, rfl⟩
  | array before v tail => exact ⟨'[', _, by rw [Node.chars], rfl⟩
  | emptyObject inside => exact ⟨'{', _, rfl, rfl⟩
  | object label v tail => exact ⟨'{', _, by rw [Node.chars], rfl⟩

theorem Node.kind_eq {n m : Node} (h : n.chars ++ r = m.chars ++ s) : n.kind = m.kind := by
  obtain ⟨c, cs, hn, hc⟩ := n.exists_first
  obtain ⟨d, ds, hm, hd⟩ := m.exists_first
  rw [hn, hm] at h
  obtain rfl := (List.cons.inj h).1
  exact Option.some.inj (hc.symm.trans hd)

theorem Node.apart (n : Node) (r : List Char) :
    Apart (fun c => Kind.ofFirst? c = none) (n.chars ++ r) := by
  obtain ⟨c, cs, hn, hc⟩ := n.exists_first
  rw [hn]
  apply apart_cons
  rw [hc]
  exact Option.some_ne_none _

theorem Node.apart_blank (n : Node) (r : List Char) : Apart IsBlank (n.chars ++ r) := by
  apply (n.apart r).mono
  rintro c (rfl | rfl | rfl | rfl)
  · rfl
  · rfl
  · rfl
  · rfl

theorem Node.ne_bracket (n : Node) (inside before : List Blank) (r s : List Char) :
    inside.unattach ++ ']' :: r ≠ before.unattach ++ (n.chars ++ s) := by
  intro h
  obtain ⟨_, h⟩ := unattach_append_inj h (apart_cons (by decide) r) (n.apart_blank s)
  exact n.apart s ']' (by rw [← h]; rfl) rfl

theorem Label.ne_brace (l : Label) (inside : List Blank) (r s : List Char) :
    inside.unattach ++ '}' :: r ≠ l.chars ++ s := by
  intro h
  simp only [Label.chars, Literal.chars, List.append_assoc, List.cons_append] at h
  obtain ⟨_, h⟩ := unattach_append_inj h (apart_cons (by decide) r) (apart_cons (by decide) _)
  exact absurd (List.cons.inj h).1 (by decide)

/-- What may follow a value. -/
def Follows (cs : List Char) : Prop :=
  ∀ c ∈ cs.head?, IsBlank c ∨ c = ',' ∨ c = ']' ∨ c = '}'

theorem Follows.apart (h : Follows cs) : Apart LengthensNumber cs := by
  intro c hc hn
  obtain (rfl | rfl | rfl | rfl) | rfl | rfl | rfl := h c hc
  · exact absurd hn (by decide)
  · exact absurd hn (by decide)
  · exact absurd hn (by decide)
  · exact absurd hn (by decide)
  · exact absurd hn (by decide)
  · exact absurd hn (by decide)
  · exact absurd hn (by decide)

theorem follows_blanks (before : List Blank) (h : Follows cs) :
    Follows (before.unattach ++ cs) := by
  cases before with
  | nil => exact h
  | cons c before =>
    intro d hd
    obtain rfl := Option.some.inj hd
    exact .inl c.property

theorem follows_cons (h : c = ',' ∨ c = ']' ∨ c = '}') (cs : List Char) :
    Follows (c :: cs) := by
  intro d hd
  obtain rfl := Option.some.inj hd
  exact .inr h

theorem ItemTail.follows (tail : ItemTail) (r : List Char) : Follows (tail.chars ++ r) := by
  cases tail with
  | close before =>
    rw [ItemTail.chars, List.append_assoc]
    exact follows_blanks before (follows_cons (.inr (.inl rfl)) r)
  | next beforeComma before v tail =>
    rw [ItemTail.chars, List.append_assoc]
    exact follows_blanks beforeComma (follows_cons (.inl rfl) _)

theorem EntryTail.follows (tail : EntryTail) (r : List Char) : Follows (tail.chars ++ r) := by
  cases tail with
  | close before =>
    rw [EntryTail.chars, List.append_assoc]
    exact follows_blanks before (follows_cons (.inr (.inr rfl)) r)
  | next beforeComma label v tail =>
    rw [EntryTail.chars, List.append_assoc]
    exact follows_blanks beforeComma (follows_cons (.inl rfl) _)

theorem blanks_append_inj {xs ys : List Blank}
    (h : xs.unattach ++ c :: r = ys.unattach ++ d :: s)
    (hc : ¬ IsBlank c) (hd : ¬ IsBlank d) : xs = ys ∧ c = d ∧ r = s := by
  obtain ⟨hxy, h⟩ := unattach_append_inj h (apart_cons hc r) (apart_cons hd s)
  exact ⟨hxy, List.cons.inj h⟩

mutual

/-- The text at the front of which a value stands determines its derivation and what is left. -/
theorem Node.chars_append_inj (n m : Node) (h : n.chars ++ r = m.chars ++ s) (hr : Follows r)
    (hs : Follows s) : n = m ∧ r = s := by
  have hk := Node.kind_eq h
  match n with
  | .null =>
    cases m with
    | null => exact ⟨rfl, List.append_cancel_left h⟩
    | _ => cases hk
  | .bool b =>
    cases m with
    | bool c =>
      obtain rfl := Kind.bool.inj hk
      exact ⟨rfl, List.append_cancel_left h⟩
    | _ => cases hk
  | .number n =>
    cases m with
    | number m =>
      obtain ⟨rfl, hrs⟩ := Numeral.chars_append_inj h hr.apart hs.apart
      exact ⟨rfl, hrs⟩
    | _ => cases hk
  | .string l =>
    cases m with
    | string m =>
      obtain ⟨rfl, hrs⟩ := Literal.chars_append_inj h
      exact ⟨rfl, hrs⟩
    | _ => cases hk
  | .emptyArray inside =>
    cases m with
    | emptyArray inside' =>
      simp only [Node.chars, List.cons_append, List.append_assoc] at h
      obtain ⟨rfl, _, hrs⟩ := blanks_append_inj (List.cons.inj h).2 (by decide) (by decide)
      exact ⟨rfl, hrs⟩
    | array before v tail =>
      simp only [Node.chars, List.cons_append, List.append_assoc] at h
      exact absurd (List.cons.inj h).2 (v.ne_bracket _ _ _ _)
    | _ => cases hk
  | .array before v tail =>
    cases m with
    | emptyArray inside =>
      simp only [Node.chars, List.cons_append, List.append_assoc] at h
      exact absurd (List.cons.inj h).2.symm (v.ne_bracket _ _ _ _)
    | array before' v' tail' =>
      simp only [Node.chars, List.cons_append, List.append_assoc] at h
      obtain ⟨rfl, hv⟩ := unattach_append_inj (List.cons.inj h).2 (v.apart_blank _)
        (v'.apart_blank _)
      obtain ⟨rfl, ht⟩ := Node.chars_append_inj v v' hv (tail.follows r) (tail'.follows s)
      obtain ⟨rfl, hrs⟩ := ItemTail.chars_append_inj tail tail' ht
      exact ⟨rfl, hrs⟩
    | _ => cases hk
  | .emptyObject inside =>
    cases m with
    | emptyObject inside' =>
      simp only [Node.chars, List.cons_append, List.append_assoc] at h
      obtain ⟨rfl, _, hrs⟩ := blanks_append_inj (List.cons.inj h).2 (by decide) (by decide)
      exact ⟨rfl, hrs⟩
    | object label v tail =>
      simp only [Node.chars, List.cons_append, List.append_assoc] at h
      exact absurd (List.cons.inj h).2 (label.ne_brace _ _ _)
    | _ => cases hk
  | .object label v tail =>
    cases m with
    | emptyObject inside =>
      simp only [Node.chars, List.cons_append, List.append_assoc] at h
      exact absurd (List.cons.inj h).2.symm (label.ne_brace _ _ _)
    | object label' v' tail' =>
      simp only [Node.chars, List.cons_append, List.append_assoc] at h
      obtain ⟨rfl, hv⟩ := Label.chars_append_inj (List.cons.inj h).2 (v.apart_blank _)
        (v'.apart_blank _)
      obtain ⟨rfl, ht⟩ := Node.chars_append_inj v v' hv (tail.follows r) (tail'.follows s)
      obtain ⟨rfl, hrs⟩ := EntryTail.chars_append_inj tail tail' ht
      exact ⟨rfl, hrs⟩
    | _ => cases hk

theorem ItemTail.chars_append_inj (tail tail' : ItemTail)
    (h : tail.chars ++ r = tail'.chars ++ s) :
    tail = tail' ∧ r = s := by
  match tail with
  | .close before =>
    cases tail' with
    | close before' =>
      simp only [ItemTail.chars, List.cons_append, List.append_assoc] at h
      obtain ⟨rfl, _, hrs⟩ := blanks_append_inj h (by decide) (by decide)
      exact ⟨rfl, hrs⟩
    | next beforeComma' before' v' tail' =>
      simp only [ItemTail.chars, List.cons_append, List.append_assoc] at h
      obtain ⟨_, hc, _⟩ := blanks_append_inj h (by decide) (by decide)
      exact absurd hc (by decide)
  | .next beforeComma before v tail =>
    cases tail' with
    | close before' =>
      simp only [ItemTail.chars, List.cons_append, List.append_assoc] at h
      obtain ⟨_, hc, _⟩ := blanks_append_inj h (by decide) (by decide)
      exact absurd hc (by decide)
    | next beforeComma' before' v' tail' =>
      simp only [ItemTail.chars, List.cons_append, List.append_assoc] at h
      obtain ⟨rfl, _, hb⟩ := blanks_append_inj h (by decide) (by decide)
      obtain ⟨rfl, hv⟩ := unattach_append_inj hb (v.apart_blank _) (v'.apart_blank _)
      obtain ⟨rfl, ht⟩ := Node.chars_append_inj v v' hv (tail.follows r) (tail'.follows s)
      obtain ⟨rfl, hrs⟩ := ItemTail.chars_append_inj tail tail' ht
      exact ⟨rfl, hrs⟩

theorem EntryTail.chars_append_inj (tail tail' : EntryTail)
    (h : tail.chars ++ r = tail'.chars ++ s) : tail = tail' ∧ r = s := by
  match tail with
  | .close before =>
    cases tail' with
    | close before' =>
      simp only [EntryTail.chars, List.cons_append, List.append_assoc] at h
      obtain ⟨rfl, _, hrs⟩ := blanks_append_inj h (by decide) (by decide)
      exact ⟨rfl, hrs⟩
    | next beforeComma' label' v' tail' =>
      simp only [EntryTail.chars, List.cons_append, List.append_assoc] at h
      obtain ⟨_, hc, _⟩ := blanks_append_inj h (by decide) (by decide)
      exact absurd hc (by decide)
  | .next beforeComma label v tail =>
    cases tail' with
    | close before' =>
      simp only [EntryTail.chars, List.cons_append, List.append_assoc] at h
      obtain ⟨_, hc, _⟩ := blanks_append_inj h (by decide) (by decide)
      exact absurd hc (by decide)
    | next beforeComma' label' v' tail' =>
      simp only [EntryTail.chars, List.cons_append, List.append_assoc] at h
      obtain ⟨rfl, _, hl⟩ := blanks_append_inj h (by decide) (by decide)
      obtain ⟨rfl, hv⟩ := Label.chars_append_inj hl (v.apart_blank _) (v'.apart_blank _)
      obtain ⟨rfl, ht⟩ := Node.chars_append_inj v v' hv (tail.follows r) (tail'.follows s)
      obtain ⟨rfl, hrs⟩ := EntryTail.chars_append_inj tail tail' ht
      exact ⟨rfl, hrs⟩

end

/-- A text has one derivation at most. -/
theorem Text.chars_injective : Function.Injective Text.chars := by
  rintro ⟨before, n, after⟩ ⟨before', n', after'⟩ h
  have hafter (bs : List Blank) : Follows bs.unattach := by
    rw [← List.append_nil bs.unattach]
    exact follows_blanks bs fun c hc => absurd hc (by simp)
  simp only [Text.chars] at h
  obtain ⟨rfl, hn⟩ := unattach_append_inj h (n.apart_blank _) (n'.apart_blank _)
  obtain ⟨rfl, ha⟩ := Node.chars_append_inj n n' hn (hafter after) (hafter after')
  have h' : after.unattach ++ [] = after'.unattach ++ [] := congrArg (· ++ []) ha
  obtain ⟨rfl, _⟩ := unattach_append_inj h' (apart_nil _) (apart_nil _)
  rfl

/-- These octets are a text in UTF-8, and that is its derivation. -/
def Text.Derives (t : Text) (bs : List UInt8) : Prop :=
  ∀ u : Text, bs = Utf8.encode u.chars ↔ u = t

theorem Text.derives_iff {t : Text} : t.Derives bs ↔ bs = Utf8.encode t.chars := by
  constructor
  · intro h
    exact (h t).mpr rfl
  · rintro rfl u
    constructor
    · intro h
      exact Text.chars_injective (Utf8.encode_injective h).symm
    · rintro rfl
      rfl

end SchemaSnapshot.Json.Grammar
