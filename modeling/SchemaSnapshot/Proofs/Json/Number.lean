import SchemaSnapshot.Proofs.Json.Grammar
import SchemaSnapshot.Proofs.Text.Utf8

namespace SchemaSnapshot.Json

namespace Grammar

theorem Digit.ne_mark (d : Digit) : ¬ (d.val = 'e' ∨ d.val = 'E') := by
  obtain ⟨c, _, hc⟩ := d
  rintro (rfl | rfl)
  · exact absurd hc (by decide)
  · exact absurd hc (by decide)

theorem NonzeroDigit.ne_mark (d : NonzeroDigit) : ¬ (d.val = 'e' ∨ d.val = 'E') := by
  obtain ⟨c, hc, hc'⟩ := d
  exact Digit.ne_mark ⟨c, Char.le_trans (by decide) hc, hc'⟩

theorem ne_mark_of_mem_digits {ds : List Digit} (h : c ∈ ds.unattach) :
    ¬ (c = 'e' ∨ c = 'E') := by
  obtain ⟨hc, _⟩ := List.mem_unattach.mp h
  exact Digit.ne_mark ⟨c, hc⟩

theorem ne_mark_of_mem_mantissa (h : c ∈ mantissa b w f) : ¬ (c = 'e' ∨ c = 'E') := by
  rw [mantissa, List.mem_append, List.mem_append] at h
  obtain h | h | h := h
  · cases b with
    | true =>
      rw [List.mem_singleton.mp h]
      decide
    | false => exact absurd h List.not_mem_nil
  · cases w with
    | zero =>
      rw [List.mem_singleton.mp h]
      decide
    | nonzero first rest =>
      obtain rfl | h := List.mem_cons.mp h
      · exact first.ne_mark
      · exact ne_mark_of_mem_digits h
  · cases f with
    | none => exact absurd h List.not_mem_nil
    | some ds =>
      obtain rfl | h := List.mem_cons.mp h
      · decide
      · obtain rfl | h := List.mem_cons.mp h
        · exact ds.first.ne_mark
        · exact ne_mark_of_mem_digits h

theorem keptChars_append (h : ∀ c ∈ cs, ¬ (c = 'e' ∨ c = 'E')) (ds : List Char) :
    keptChars (cs ++ ds) = cs ++ keptChars ds := by
  induction cs with
  | nil => rfl
  | cons c cs ih =>
    have ht := ih fun d hd => h d (List.mem_cons_of_mem c hd)
    rw [List.cons_append, keptChars, if_neg (h c List.mem_cons_self), ht]
    rfl

def Exponent.normal (e : Exponent) : Exponent :=
  ⟨⟨'e', .inl rfl⟩, some (e.sign.getD ⟨'+', .inl rfl⟩), e.digits⟩

def Numeral.normal (n : Numeral) : Numeral :=
  { n with exponent := n.exponent.map Exponent.normal }

theorem signed_digits (ds : Digits) : signed ds.chars = '+' :: ds.chars := by
  obtain ⟨⟨c, h, h'⟩, rest⟩ := ds
  have hc : ¬ (c = '+' ∨ c = '-') := by
    rintro (rfl | rfl)
    · exact absurd h (by decide)
    · exact absurd h (by decide)
  rw [Digits.chars, signed, if_neg hc]

theorem Exponent.kept (e : Exponent) : keptChars e.chars = e.normal.chars := by
  obtain ⟨mark, sign, digits⟩ := e
  rw [Exponent.chars, keptChars, if_pos mark.property]
  cases sign with
  | none => exact congrArg ('e' :: ·) (signed_digits digits)
  | some s => exact congrArg ('e' :: ·) (if_pos s.property)

theorem Numeral.kept (n : Numeral) : keptChars n.chars = n.normal.chars := by
  obtain ⟨b, w, f, e⟩ := n
  rw [Numeral.chars, keptChars_append fun c => ne_mark_of_mem_mantissa]
  cases e with
  | none => rfl
  | some e => exact congrArg (mantissa b w f ++ ·) e.kept

theorem Numeral.kept_kept (n : Numeral) : keptChars n.normal.chars = n.normal.chars := by
  have h : n.normal.normal = n.normal := by
    obtain ⟨b, w, f, e⟩ := n
    cases e with
    | none => rfl
    | some e => rfl
  rw [n.normal.kept, h]

end Grammar

open Grammar

/-- The beginnings of a number that end in this part, with the text that is kept of each. -/
def NumberPart.Begun : NumberPart → List Char → List Char → Prop
  | .minus, cs, kept => cs = ['-'] ∧ kept = cs
  | .zero, cs, kept => ∃ b, cs = mantissa b .zero none ∧ kept = cs
  | .whole, cs, kept => ∃ b d ds, cs = mantissa b (.nonzero d ds) none ∧ kept = cs
  | .point, cs, kept => ∃ b w, cs = mantissa b w none ++ ['.'] ∧ kept = cs
  | .fraction, cs, kept => ∃ b w ds, cs = mantissa b w (some ds) ∧ kept = cs
  | .mark, cs, kept =>
    ∃ b w f, ∃ e : Mark, cs = mantissa b w f ++ [e.val] ∧ kept = mantissa b w f ++ ['e']
  | .sign, cs, kept =>
    ∃ b w f, ∃ e : Mark, ∃ s : Sign,
      cs = mantissa b w f ++ [e.val, s.val] ∧ kept = mantissa b w f ++ ['e', s.val]
  | .exponent, cs, kept =>
    ∃ b w f, ∃ e : Exponent,
      cs = mantissa b w f ++ e.chars ∧ kept = mantissa b w f ++ e.normal.chars

theorem NumberPart.Begun.complete (h : NumberPart.Begun part cs kept)
    (hc : part.complete = true) : ∃ n : Numeral, cs = n.chars ∧ kept = n.normal.chars := by
  cases part with
  | zero =>
    obtain ⟨b, rfl, rfl⟩ := h
    exact ⟨⟨b, .zero, none, none⟩, (List.append_nil _).symm, (List.append_nil _).symm⟩
  | whole =>
    obtain ⟨b, d, ds, rfl, rfl⟩ := h
    exact ⟨⟨b, .nonzero d ds, none, none⟩, (List.append_nil _).symm, (List.append_nil _).symm⟩
  | fraction =>
    obtain ⟨b, w, ds, rfl, rfl⟩ := h
    exact ⟨⟨b, w, some ds, none⟩, (List.append_nil _).symm, (List.append_nil _).symm⟩
  | exponent =>
    obtain ⟨b, w, f, e, rfl, rfl⟩ := h
    exact ⟨⟨b, w, f, some e⟩, rfl, rfl⟩
  | minus => exact absurd hc (by decide)
  | point => exact absurd hc (by decide)
  | mark => exact absurd hc (by decide)
  | sign => exact absurd hc (by decide)

theorem le_of_isDigit (h : isDigit b = true) : 0x30 ≤ b.toNat ∧ b.toNat ≤ 0x39 := by
  rw [isDigit, Bool.and_eq_true, decide_eq_true_eq, decide_eq_true_eq] at h
  exact h

theorem lt_of_isDigit (h : isDigit b = true) : b < 0x80 :=
  UInt8.lt_iff_toNat_lt.mpr (Nat.lt_of_le_of_lt (le_of_isDigit h).2 (by decide))

def digitOf (b : UInt8) (h : isDigit b = true) : Digit :=
  ⟨Char.ofUInt8 b, le_of_isDigit h⟩

def nonzeroOf (b : UInt8) (h : isDigit b = true) (h' : b ≠ 0x30) : NonzeroDigit :=
  ⟨Char.ofUInt8 b, Nat.lt_of_le_of_ne (le_of_isDigit h).1 fun hb =>
    h' (UInt8.toNat_inj.mp hb.symm),
    (le_of_isDigit h).2⟩

theorem mantissa_whole_concat (b : Bool) (first : NonzeroDigit)
    (rest : List Digit) (d : Digit) :
    mantissa b (.nonzero first rest) none ++ [d.val] =
      mantissa b (.nonzero first (rest ++ [d])) none := by
  simp [mantissa, Whole.chars, fractionChars]

theorem mantissa_fraction_concat (b : Bool) (w : Whole) (ds : Digits) (d : Digit) :
    mantissa b w (some ds) ++ [d.val] = mantissa b w (some ⟨ds.first, ds.rest ++ [d]⟩) := by
  simp [mantissa, fractionChars, Digits.chars]

theorem mantissa_point (b : Bool) (w : Whole) (d : Digit) :
    mantissa b w none ++ ['.'] ++ [d.val] = mantissa b w (some ⟨d, []⟩) := by
  simp [mantissa, fractionChars, Digits.chars]

namespace NumberScan

variable {m n : NumberScan}

def Holds (n : NumberScan) (cs : List Char) : Prop :=
  n.part.Begun cs n.kept.reverse

theorem holds_start (h : start? b = some n) : b < 0x80 ∧ n.Holds [Char.ofUInt8 b] := by
  rw [start?] at h
  split at h
  · next hb =>
    obtain rfl := Option.some.inj h
    subst hb
    exact ⟨by decide, rfl, rfl⟩
  · next hb =>
    split at h
    · next hz =>
      obtain rfl := Option.some.inj h
      subst hz
      exact ⟨by decide, false, rfl, rfl⟩
    · next hz =>
      split at h
      · next hd =>
        obtain rfl := Option.some.inj h
        exact ⟨lt_of_isDigit hd, false, nonzeroOf b hd hz, [], rfl, rfl⟩
      · cases h

theorem holds_markOrEnd (h : n.markOrEnd b = .more m) (hcs : cs = mantissa s w f)
    (hk : n.kept.reverse = cs) : b < 0x80 ∧ m.Holds (cs ++ [Char.ofUInt8 b]) := by
  rw [markOrEnd] at h
  split at h
  · next hb =>
    obtain rfl := Step.more.inj h
    have hlt : b < 0x80 := by
      obtain rfl | rfl := hb
      · decide
      · decide
    have hm : Char.ofUInt8 b = 'e' ∨ Char.ofUInt8 b = 'E' := by
      obtain rfl | rfl := hb
      · exact .inl rfl
      · exact .inr rfl
    refine ⟨hlt, s, w, f, ⟨_, hm⟩, by rw [hcs], ?_⟩
    rw [List.reverse_cons, hk, hcs]
  · cases h

theorem holds_pointOrEnd (h : n.pointOrEnd b = .more m) (hcs : cs = mantissa s w none)
    (hk : n.kept.reverse = cs) : b < 0x80 ∧ m.Holds (cs ++ [Char.ofUInt8 b]) := by
  rw [pointOrEnd] at h
  split at h
  · next hb =>
    obtain rfl := Step.more.inj h
    subst hb
    refine ⟨by decide, s, w, by rw [hcs]; rfl, ?_⟩
    rw [List.reverse_cons, hk]
    rfl
  · exact holds_markOrEnd h hcs hk

theorem holds_digit {p : NumberPart} (h : n.digit p b = .more m) (hd : isDigit b = true)
    (hk : n.kept.reverse = ks) (hp : p.Begun (cs ++ [Char.ofUInt8 b])
      (ks ++ [Char.ofUInt8 b])) :
    b < 0x80 ∧ m.Holds (cs ++ [Char.ofUInt8 b]) := by
  obtain rfl := Step.more.inj h
  have hr : (Char.ofUInt8 b :: n.kept).reverse = ks ++ [Char.ofUInt8 b] := by
    rw [List.reverse_cons, hk]
  apply And.intro (lt_of_isDigit hd)
  rw [Holds, hr]
  exact hp

theorem Holds.step (hn : Holds n cs) (h : n.step b = .more m) :
    b < 0x80 ∧ m.Holds (cs ++ [Char.ofUInt8 b]) := by
  obtain ⟨part, kept⟩ := n
  cases part with
  | minus =>
    obtain ⟨rfl, hk⟩ := hn
    simp only [NumberScan.step] at h
    split at h
    · next hb =>
      subst hb
      exact holds_digit h (by decide) hk ⟨true, rfl, rfl⟩
    · next hz =>
      split at h
      · next hd => exact holds_digit h hd hk ⟨true, nonzeroOf b hd hz, [], rfl, rfl⟩
      · cases h
  | zero =>
    obtain ⟨s, hcs, hk⟩ := hn
    simp only [NumberScan.step] at h
    split at h
    · cases h
    · exact holds_pointOrEnd h hcs hk
  | whole =>
    obtain ⟨s, d, ds, hcs, hk⟩ := hn
    simp only [NumberScan.step] at h
    split at h
    · next hd =>
      have hc := mantissa_whole_concat s d ds (digitOf b hd)
      rw [← hcs] at hc
      exact holds_digit h hd hk ⟨s, d, ds ++ [digitOf b hd], hc, rfl⟩
    · exact holds_pointOrEnd h hcs hk
  | point =>
    obtain ⟨s, w, hcs, hk⟩ := hn
    simp only [NumberScan.step] at h
    split at h
    · next hd =>
      have hc := mantissa_point s w (digitOf b hd)
      rw [← hcs] at hc
      exact holds_digit h hd hk ⟨s, w, ⟨digitOf b hd, []⟩, hc, rfl⟩
    · cases h
  | fraction =>
    obtain ⟨s, w, ds, hcs, hk⟩ := hn
    simp only [NumberScan.step] at h
    split at h
    · next hd =>
      have hc := mantissa_fraction_concat s w ds (digitOf b hd)
      rw [← hcs] at hc
      exact holds_digit h hd hk ⟨s, w, ⟨ds.first, ds.rest ++ [digitOf b hd]⟩, hc, rfl⟩
    · exact holds_markOrEnd h hcs hk
  | mark =>
    obtain ⟨s, w, f, e, rfl, hk⟩ := hn
    simp only [NumberScan.step] at h
    split at h
    · next hd =>
      -- A digit right after the mark stands for two characters of what is kept.
      obtain rfl := Step.more.inj h
      refine ⟨lt_of_isDigit hd, s, w, f, ⟨e, none, digitOf b hd, []⟩, ?_, ?_⟩
      · rw [List.append_assoc]
        rfl
      · rw [List.reverse_cons, List.reverse_cons, hk, List.append_assoc, List.append_assoc]
        rfl
    · split at h
      · next hb =>
        obtain rfl := Step.more.inj h
        have hs : Char.ofUInt8 b = '+' ∨ Char.ofUInt8 b = '-' := by
          obtain rfl | rfl := hb
          · exact .inl rfl
          · exact .inr rfl
        have hlt : b < 0x80 := by
          obtain rfl | rfl := hb
          · decide
          · decide
        refine ⟨hlt, s, w, f, e, ⟨_, hs⟩, ?_, ?_⟩
        · rw [List.append_assoc]
          rfl
        · rw [List.reverse_cons, hk, List.append_assoc]
          rfl
      · cases h
  | sign =>
    obtain ⟨s, w, f, e, sign, rfl, hk⟩ := hn
    simp only [NumberScan.step] at h
    split at h
    · next hd =>
      apply holds_digit h hd hk
      refine ⟨s, w, f, ⟨e, some sign, digitOf b hd, []⟩, ?_, ?_⟩
      · rw [List.append_assoc]
        rfl
      · rw [List.append_assoc]
        rfl
    · cases h
  | exponent =>
    obtain ⟨s, w, f, e, rfl, hk⟩ := hn
    simp only [NumberScan.step] at h
    split at h
    · next hd =>
      apply holds_digit h hd hk
      refine ⟨s, w, f, ⟨e.mark, e.sign, e.digits.first,
        e.digits.rest ++ [digitOf b hd]⟩, ?_, ?_⟩
      · simp [Exponent.chars, Digits.chars, digitOf]
      · simp [Exponent.chars, Exponent.normal, Digits.chars, digitOf]
    · cases h

def next? (n : NumberScan) (b : UInt8) : Option NumberScan :=
  match n.step b with
  | .more m => some m
  | _ => none

theorem next?_eq_some_iff : n.next? b = some m ↔ n.step b = .more m := by
  rw [next?]
  constructor
  · intro h
    split at h
    · next m' hs =>
      obtain rfl := Option.some.inj h
      exact hs
    · cases h
  · intro h
    rw [h]

def feed (n : NumberScan) (bs : List UInt8) : Option NumberScan :=
  bs.foldlM next? n

theorem feed_cons (h : n.step b = .more m) (bs : List UInt8) :
    n.feed (b :: bs) = m.feed bs := by
  rw [feed, List.foldlM_cons, next?_eq_some_iff.mpr h]
  rfl

theorem exists_step_of_feed (h : n.feed (b :: bs) = some m) :
    ∃ n', n.step b = .more n' ∧ n'.feed bs = some m := by
  rw [feed, List.foldlM_cons] at h
  obtain ⟨n', hs, hf⟩ := Option.bind_eq_some_iff.mp h
  exact ⟨n', next?_eq_some_iff.mp hs, hf⟩

theorem feed_append (h : n.feed bs = some m) (cs : List UInt8) :
    n.feed (bs ++ cs) = m.feed cs := by
  rw [feed] at h
  rw [feed, List.foldlM_append, h]
  rfl

theorem Holds.feed (hn : Holds n cs) (h : n.feed bs = some m) :
    ∃ ds, bs = Utf8.encode ds ∧ m.Holds (cs ++ ds) := by
  induction bs generalizing n cs with
  | nil =>
    obtain rfl := Option.some.inj h
    exact ⟨[], rfl, by rwa [List.append_nil]⟩
  | cons b bs ih =>
    obtain ⟨n', hs, hf⟩ := exists_step_of_feed h
    obtain ⟨hlt, hn'⟩ := hn.step hs
    obtain ⟨ds, rfl, hm⟩ := ih hn' hf
    refine ⟨Char.ofUInt8 b :: ds, (Utf8.encode_ofUInt8_cons hlt ds).symm, ?_⟩
    rwa [List.append_assoc, List.singleton_append] at hm

/-- A scan that may end here has read a number and kept its text. -/
theorem exists_numeral (hs : start? b = some n) (hf : n.feed bs = some m)
    (hc : m.part.complete = true) :
    ∃ k : Numeral, b :: bs = Utf8.encode k.chars ∧
      m.text = String.ofList (keptChars k.chars) := by
  obtain ⟨hlt, hn⟩ := holds_start hs
  obtain ⟨ds, rfl, hm⟩ := hn.feed hf
  obtain ⟨k, hk, hkept⟩ := hm.complete hc
  refine ⟨k, ?_, ?_⟩
  · rw [← hk, List.singleton_append, Utf8.encode_ofUInt8_cons hlt]
  · rw [text, hkept, k.kept]

/-- These characters take the scan from one part to another, whatever it has kept. -/
def Leads (p : NumberPart) (cs : List Char) (q : NumberPart) : Prop :=
  ∀ kept, ∃ kept', feed ⟨p, kept⟩ (Utf8.encode cs) = some ⟨q, kept'⟩

theorem Leads.nil : Leads p [] p := fun kept => ⟨kept, rfl⟩

theorem Leads.append (h : Leads p cs q) (h' : Leads q ds r) : Leads p (cs ++ ds) r := by
  intro kept
  obtain ⟨kept₁, h₁⟩ := h kept
  obtain ⟨kept₂, h₂⟩ := h' kept₁
  exact ⟨kept₂, by rw [Utf8.encode_append, feed_append h₁, h₂]⟩

theorem Leads.of_step (hc : c.toNat < 0x80)
    (h : ∀ kept, ∃ kept', step ⟨p, kept⟩ (UInt8.ofNat c.toNat) = .more ⟨q, kept'⟩) :
    Leads p [c] q := by
  intro kept
  obtain ⟨kept', h'⟩ := h kept
  refine ⟨kept', ?_⟩
  rw [Utf8.encode_cons, Utf8.encodeChar_ascii hc]
  exact feed_cons h' []

theorem Leads.cons (h : Leads p [c] q) (h' : Leads q cs r) : Leads p (c :: cs) r :=
  h.append h'

def afterDigits : NumberPart → NumberPart
  | .minus | .zero | .whole => .whole
  | .point | .fraction => .fraction
  | .mark | .sign | .exponent => .exponent

theorem digit_ascii (d : Digit) : d.val.toNat < 0x80 :=
  Nat.lt_of_le_of_lt d.property.2 (by decide)

theorem isDigit_digit (d : Digit) : isDigit (UInt8.ofNat d.val.toNat) = true := by
  have hn := Utf8.toNat_ofNat_of_lt (Nat.lt_trans (digit_ascii d) (by decide : 0x80 < 0x100))
  rw [isDigit, Bool.and_eq_true, decide_eq_true_eq, decide_eq_true_eq, UInt8.le_iff_toNat_le,
    UInt8.le_iff_toNat_le, hn]
  exact d.property

theorem leads_digit (d : Digit) (hm : p ≠ .minus) (hz : p ≠ .zero) :
    Leads p [d.val] (afterDigits p) := by
  refine .of_step (digit_ascii d) fun kept => ?_
  have hd := isDigit_digit d
  cases p with
  | minus => exact absurd rfl hm
  | zero => exact absurd rfl hz
  | whole => exact ⟨_, if_pos hd⟩
  | point => exact ⟨_, if_pos hd⟩
  | fraction => exact ⟨_, if_pos hd⟩
  | mark => exact ⟨_, if_pos hd⟩
  | sign => exact ⟨_, if_pos hd⟩
  | exponent => exact ⟨_, if_pos hd⟩

theorem leads_rest (ds : List Digit) (hp : afterDigits p = p) : Leads p ds.unattach p := by
  have hm : p ≠ .minus := by
    rintro rfl
    exact absurd hp (by decide)
  have hz : p ≠ .zero := by
    rintro rfl
    exact absurd hp (by decide)
  induction ds with
  | nil => exact .nil
  | cons d ds ih =>
    have hd := leads_digit d hm hz
    rw [hp] at hd
    exact hd.cons ih

theorem afterDigits_idem (p : NumberPart) : afterDigits (afterDigits p) = afterDigits p := by
  cases p with
  | _ => rfl

theorem leads_digits (ds : Digits) (hm : p ≠ .minus) (hz : p ≠ .zero) :
    Leads p ds.chars (afterDigits p) :=
  (leads_digit ds.first hm hz).cons (leads_rest ds.rest (afterDigits_idem p))

theorem leads_sign (s : Sign) : Leads .mark [s.val] .sign := by
  obtain ⟨c, rfl | rfl⟩ := s
  · exact .of_step (by decide) fun kept => ⟨_, rfl⟩
  · exact .of_step (by decide) fun kept => ⟨_, rfl⟩

theorem leads_exponent (e : Exponent) (hp : Leads p [e.mark.val] .mark) :
    Leads p e.chars .exponent := by
  obtain ⟨mark, sign, digits⟩ := e
  apply hp.cons
  cases sign with
  | none => exact leads_digits digits (by decide) (by decide)
  | some s => exact (leads_sign s).cons (leads_digits digits (by decide) (by decide))

theorem leads_mark (e : Mark) (hp : p = .zero ∨ p = .whole ∨ p = .fraction) :
    Leads p [e.val] .mark := by
  obtain ⟨c, rfl | rfl⟩ := e
  · obtain rfl | rfl | rfl := hp
    · exact .of_step (by decide) fun kept => ⟨_, rfl⟩
    · exact .of_step (by decide) fun kept => ⟨_, rfl⟩
    · exact .of_step (by decide) fun kept => ⟨_, rfl⟩
  · obtain rfl | rfl | rfl := hp
    · exact .of_step (by decide) fun kept => ⟨_, rfl⟩
    · exact .of_step (by decide) fun kept => ⟨_, rfl⟩
    · exact .of_step (by decide) fun kept => ⟨_, rfl⟩

theorem leads_exponentChars (e : Option Exponent)
    (hp : p = .zero ∨ p = .whole ∨ p = .fraction) :
    ∃ q : NumberPart, q.complete = true ∧ Leads p (exponentChars e) q := by
  cases e with
  | none =>
    refine ⟨p, ?_, .nil⟩
    obtain rfl | rfl | rfl := hp
    · rfl
    · rfl
    · rfl
  | some e => exact ⟨.exponent, rfl, leads_exponent e (leads_mark e.mark hp)⟩

theorem leads_fractionChars (f : Option Digits) (hp : p = .zero ∨ p = .whole) :
    ∃ q, (q = .zero ∨ q = .whole ∨ q = .fraction) ∧ Leads p (fractionChars f) q := by
  cases f with
  | none => exact ⟨p, hp.elim .inl fun h => .inr (.inl h), .nil⟩
  | some ds =>
    have hpoint : Leads p ['.'] .point := by
      obtain rfl | rfl := hp
      · exact .of_step (by decide) fun kept => ⟨_, rfl⟩
      · exact .of_step (by decide) fun kept => ⟨_, rfl⟩
    exact ⟨.fraction, .inr (.inr rfl), hpoint.cons (leads_digits ds (by decide) (by decide))⟩

def Starts (bs : List UInt8) (p : NumberPart) : Prop :=
  ∃ b r n m, bs = b :: r ∧ start? b = some n ∧ n.feed r = some m ∧ m.part = p

theorem Starts.append (h : Starts (Utf8.encode cs) p) (h' : Leads p ds q) :
    Starts (Utf8.encode (cs ++ ds)) q := by
  obtain ⟨b, r, n, ⟨_, kept⟩, hb, hs, hf, rfl⟩ := h
  obtain ⟨kept', hl⟩ := h' kept
  refine ⟨b, r ++ Utf8.encode ds, n, ⟨q, kept'⟩, ?_, hs, by rw [feed_append hf, hl], rfl⟩
  rw [Utf8.encode_append, hb, List.cons_append]

theorem isDigit_nonzero (d : NonzeroDigit) :
    isDigit (UInt8.ofNat d.val.toNat) = true ∧ UInt8.ofNat d.val.toNat ≠ 0x30 ∧
      d.val.toNat < 0x80 := by
  have hd : '0' ≤ d.val ∧ d.val ≤ '9' := ⟨Char.le_trans (by decide) d.property.1, d.property.2⟩
  have hlt := digit_ascii ⟨d.val, hd⟩
  have hz : UInt8.ofNat d.val.toNat ≠ 0x30 := by
    intro h
    have hn := Utf8.toNat_ofNat_of_lt (b := d.val.toNat) (Nat.lt_trans hlt (by decide))
    have h1 : '1'.toNat ≤ d.val.toNat := d.property.1
    rw [h] at hn
    rw [← hn] at h1
    exact absurd h1 (by decide)
  exact ⟨isDigit_digit ⟨d.val, hd⟩, hz, hlt⟩

theorem starts_whole (isNegative : Bool) (w : Whole) :
    ∃ p, (p = .zero ∨ p = .whole) ∧
      Starts (Utf8.encode (minusChars isNegative ++ w.chars)) p := by
  cases isNegative with
  | true =>
    have hminus : Starts (Utf8.encode ['-']) .minus := ⟨_, _, _, _, rfl, rfl, rfl, rfl⟩
    cases w with
    | zero =>
      exact ⟨.zero, .inl rfl, hminus.append (.of_step (by decide) fun kept => ⟨_, rfl⟩)⟩
    | nonzero d ds =>
      obtain ⟨hd, hz, hlt⟩ := isDigit_nonzero d
      have hfirst : Leads .minus [d.val] .whole :=
        .of_step hlt fun kept => ⟨_, (if_neg hz).trans (if_pos hd)⟩
      exact ⟨.whole, .inr rfl, hminus.append (hfirst.cons (leads_rest ds rfl))⟩
  | false =>
    cases w with
    | zero => exact ⟨.zero, .inl rfl, _, _, _, _, rfl, rfl, rfl, rfl⟩
    | nonzero d ds =>
      obtain ⟨hd, hz, hlt⟩ := isDigit_nonzero d
      have hm : UInt8.ofNat d.val.toNat ≠ 0x2D := by
        intro h
        rw [h] at hd
        exact absurd hd (by decide)
      have hfirst : Starts (Utf8.encode [d.val]) .whole := by
        refine ⟨_, [], ⟨.whole, _⟩, ⟨.whole, _⟩, ?_,
          (if_neg hm).trans ((if_neg hz).trans (if_pos hd)), rfl, rfl⟩
        rw [Utf8.encode_cons, Utf8.encodeChar_ascii hlt]
        rfl
      exact ⟨.whole, .inr rfl, hfirst.append (leads_rest ds rfl)⟩

theorem starts_numeral (n : Numeral) :
    ∃ p : NumberPart, p.complete = true ∧ Starts (Utf8.encode n.chars) p := by
  obtain ⟨b, w, f, e⟩ := n
  obtain ⟨p, hp, hw⟩ := starts_whole b w
  obtain ⟨q, hq, hf⟩ := leads_fractionChars f hp
  obtain ⟨r, hr, he⟩ := leads_exponentChars e hq
  refine ⟨r, hr, ?_⟩
  rw [Numeral.chars, mantissa, ← List.append_assoc (minusChars b)]
  exact (hw.append hf).append he

end NumberScan

theorem numberRest_cons (n : NumberScan) (p : Position) (b : UInt8) (bs : List UInt8) :
    (∃ m, n.step b = .more m ∧ numberRest n p (b :: bs) = numberRest m (p.next b) bs) ∨
      (n.feed (b :: bs) = none ∧ ∃ e, numberRest n p (b :: bs) = .error e) := by
  rw [numberRest.eq_def, NumberScan.feed, List.foldlM_cons, NumberScan.next?]
  dsimp only
  cases hs : n.step b with
  | more m => exact .inl ⟨m, rfl, rfl⟩
  | ended => exact .inr ⟨rfl, _, rfl⟩
  | invalid =>
    refine .inr ⟨rfl, ?_⟩
    dsimp only
    split
    · exact ⟨_, rfl⟩
    · exact ⟨_, rfl⟩
    · exact ⟨_, rfl⟩
    · exact ⟨_, rfl⟩

theorem numberRest_eq_ok_iff {n : NumberScan} :
    numberRest n p bs = .ok s ↔
      ∃ m, n.feed bs = some m ∧ m.part.complete = true ∧ s = m.text := by
  induction bs generalizing n p with
  | nil =>
    rw [numberRest]
    constructor
    · intro h
      split at h
      · next hc => exact ⟨n, rfl, hc, (Except.ok.inj h).symm⟩
      · cases h
    · rintro ⟨m, hm, hc, rfl⟩
      obtain rfl := Option.some.inj hm
      rw [if_pos hc]
  | cons b bs ih =>
    obtain ⟨m, hs, hr⟩ | ⟨hf, e, he⟩ := numberRest_cons n p b bs
    · rw [hr, NumberScan.feed_cons hs]
      exact ih
    · rw [hf, he]
      simp

/-- The texts of numbers are those that the grammar derives. -/
theorem numberOfText_eq_ok_iff :
    numberOfText s = .ok t ↔
      ∃ n : Numeral, s.toList = n.chars ∧ t = String.ofList (keptChars n.chars) := by
  rw [numberOfText, octets]
  constructor
  · intro h
    split at h
    · cases h
    · next b bs hb =>
      split at h
      · next n hs =>
        obtain ⟨m, hf, hc, rfl⟩ := numberRest_eq_ok_iff.mp h
        obtain ⟨k, hk, ht⟩ := NumberScan.exists_numeral hs hf hc
        exact ⟨k, Utf8.encode_injective (hb.trans hk), ht⟩
      · cases h
  · rintro ⟨k, hk, rfl⟩
    obtain ⟨p, hp, b, r, n, m, hb, hs, hf, rfl⟩ := NumberScan.starts_numeral k
    obtain ⟨k', hk', ht⟩ := NumberScan.exists_numeral hs hf hp
    have hkk : k.chars = k'.chars := Utf8.encode_injective (hb.trans hk')
    rw [hk, hb]
    simp only [hs]
    exact numberRest_eq_ok_iff.mpr ⟨m, hf, hp, by rw [ht, hkk]⟩

end SchemaSnapshot.Json
