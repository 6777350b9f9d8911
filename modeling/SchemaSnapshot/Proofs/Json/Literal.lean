import SchemaSnapshot.Proofs.Json.Grammar
import SchemaSnapshot.Proofs.Text.Utf8

namespace SchemaSnapshot.Json

namespace Grammar

theorem HexDigit.value_cases (d : HexDigit) :
    (0x30 ≤ d.val.toNat ∧ d.val.toNat ≤ 0x39 ∧ HexDigit.value d = d.val.toNat - 0x30) ∨
      (0x61 ≤ d.val.toNat ∧ d.val.toNat ≤ 0x66 ∧ HexDigit.value d = d.val.toNat - 0x57) ∨
      (0x41 ≤ d.val.toNat ∧ d.val.toNat ≤ 0x46 ∧ HexDigit.value d = d.val.toNat - 0x37) := by
  have h : (0x30 ≤ d.val.toNat ∧ d.val.toNat ≤ 0x39) ∨
      (0x61 ≤ d.val.toNat ∧ d.val.toNat ≤ 0x66) ∨
      (0x41 ≤ d.val.toNat ∧ d.val.toNat ≤ 0x46) := d.property
  have hv : HexDigit.value d = if d.val.toNat ≤ 0x39 then d.val.toNat - 0x30
      else if 0x61 ≤ d.val.toNat then d.val.toNat - 0x61 + 10 else d.val.toNat - 0x41 + 10 :=
        rfl
  rw [hv]
  split
  · omega
  · split
    · omega
    · omega

theorem HexDigit.value?_eq (d : HexDigit) :
    Hex.value? d.val.toNat = some (HexDigit.value d) := by
  rw [Hex.value?]
  obtain ⟨h, h', hv⟩ | ⟨h, h', hv⟩ | ⟨h, h', hv⟩ := HexDigit.value_cases d
  · rw [if_pos ⟨h, h'⟩, hv]
  · rw [if_neg (by omega), if_pos ⟨h, h'⟩, hv]
  · rw [if_neg (by omega), if_neg (by omega), if_pos ⟨h, h'⟩, hv]

theorem HexDigit.lt (d : HexDigit) : d.val.toNat < 0x80 := by
  obtain ⟨_, h, _⟩ | ⟨_, h, _⟩ | ⟨_, h, _⟩ := HexDigit.value_cases d
  · omega
  · omega
  · omega

theorem HexDigit.exists_of_value? {b : UInt8} (h : Hex.value? b.toNat = some v) :
    ∃ d : HexDigit, String.utf8EncodeChar d.val = [b] ∧ HexDigit.value d = v := by
  have hb : (0x30 ≤ b.toNat ∧ b.toNat ≤ 0x39) ∨ (0x61 ≤ b.toNat ∧ b.toNat ≤ 0x66) ∨
      (0x41 ≤ b.toNat ∧ b.toNat ≤ 0x46) := by
    rw [Hex.value?] at h
    split at h
    · next h0 => exact .inl h0
    · split at h
      · next h1 => exact .inr (.inl h1)
      · split at h
        · next h2 => exact .inr (.inr h2)
        · cases h
  let d : HexDigit := ⟨Char.ofUInt8 b, hb⟩
  exact ⟨d, Utf8.encodeChar_ofUInt8 (UInt8.lt_iff_toNat_lt.mpr (HexDigit.lt d)),
    Option.some.inj ((HexDigit.value?_eq d).symm.trans h)⟩

theorem HexQuad.encode_chars (q : HexQuad) :
    Utf8.encode q.chars = [UInt8.ofNat q.first.val.toNat, UInt8.ofNat q.second.val.toNat,
      UInt8.ofNat q.third.val.toNat, UInt8.ofNat q.fourth.val.toNat] := by
  simp only [HexQuad.chars, Utf8.encode_cons, Utf8.encodeChar_ascii (HexDigit.lt _),
    Utf8.encode_nil]
  rfl

theorem HexQuad.hexNumber? (q : HexQuad) : hexNumber? (Utf8.encode q.chars) = some q.code := by
  have hd (d : HexDigit) : Hex.value? (UInt8.ofNat d.val.toNat).toNat =
    some (HexDigit.value d) := by
    rw [Utf8.toNat_ofNat_of_lt (Nat.lt_trans (HexDigit.lt d) (by decide)), HexDigit.value?_eq]
  simp only [q.encode_chars, Json.hexNumber?, List.foldlM_cons, List.foldlM_nil, hd,
    Option.map_some, Option.bind_eq_bind, Option.bind_some, Option.pure_def, HexQuad.code,
    Nat.zero_mul, Nat.zero_add]

theorem HexQuad.exists_of_hexNumber? (h : Json.hexNumber? [a, b, c, d] = some n) :
    ∃ q : HexQuad, Utf8.encode q.chars = [a, b, c, d] ∧ q.code = n := by
  simp only [Json.hexNumber?, List.foldlM_cons, List.foldlM_nil, Option.bind_eq_bind,
    Option.bind_eq_some_iff, Option.map_eq_some_iff, Option.pure_def, Option.some.injEq] at h
  obtain ⟨_, ⟨va, ha, rfl⟩, _, ⟨vb, hb, rfl⟩, _, ⟨vc, hc, rfl⟩, _, ⟨vd, hd, rfl⟩, rfl⟩ := h
  obtain ⟨p, hp, rfl⟩ := HexDigit.exists_of_value? ha
  obtain ⟨q, hq, rfl⟩ := HexDigit.exists_of_value? hb
  obtain ⟨r, hr, rfl⟩ := HexDigit.exists_of_value? hc
  obtain ⟨s, hs, rfl⟩ := HexDigit.exists_of_value? hd
  refine ⟨⟨p, q, r, s⟩, ?_, ?_⟩
  · simp [HexQuad.chars, Utf8.encode_cons, Utf8.encode_nil, hp, hq, hr, hs]
  · simp [HexQuad.code]

theorem ShortEscape.shortEscape?_letter (e : ShortEscape) :
    shortEscape? (UInt8.ofNat e.letter.toNat) = some e.char ∧
      UInt8.ofNat e.letter.toNat ≠ 0x75 ∧ e.letter.toNat < 0x80 := by
  cases e with
  | _ => exact ⟨rfl, by decide, by decide⟩

theorem ShortEscape.exists_of_shortEscape? (h : Json.shortEscape? b = some c) :
    ∃ e : ShortEscape, UInt8.ofNat e.letter.toNat = b ∧ e.char = c := by
  rw [Json.shortEscape?] at h
  split at h
  · next hb => exact ⟨.quote, (Utf8.eq_ofNat_of_ofUInt8 hb).symm, Option.some.inj h⟩
  · next hb => exact ⟨.backslash, (Utf8.eq_ofNat_of_ofUInt8 hb).symm, Option.some.inj h⟩
  · next hb => exact ⟨.slash, (Utf8.eq_ofNat_of_ofUInt8 hb).symm, Option.some.inj h⟩
  · next hb => exact ⟨.backspace, (Utf8.eq_ofNat_of_ofUInt8 hb).symm, Option.some.inj h⟩
  · next hb => exact ⟨.formFeed, (Utf8.eq_ofNat_of_ofUInt8 hb).symm, Option.some.inj h⟩
  · next hb => exact ⟨.lineFeed, (Utf8.eq_ofNat_of_ofUInt8 hb).symm, Option.some.inj h⟩
  · next hb => exact ⟨.carriageReturn, (Utf8.eq_ofNat_of_ofUInt8 hb).symm, Option.some.inj h⟩
  · next hb => exact ⟨.tab, (Utf8.eq_ofNat_of_ofUInt8 hb).symm, Option.some.inj h⟩
  · cases h

namespace Literal

theorem body_cons (u : StringUnit) (l : Literal) : body (u :: l) = u.chars ++ body l := rfl

theorem body_append (l l' : Literal) : body (l ++ l') = body l ++ body l' :=
  List.flatMap_append

theorem contentChars_hex (hq : ¬ (q.IsHigh ∧ ∃ r l', l = .hex r :: l' ∧ r.IsLow)) :
    contentChars (.hex q :: l) = Char.ofNat q.code :: contentChars l := by
  cases l with
  | nil => rfl
  | cons u l =>
    cases u with
    | plain c => rfl
    | short e => rfl
    | hex r =>
      rw [contentChars, if_neg]
      rintro ⟨hq', hr⟩
      exact hq ⟨hq', r, l, rfl, hr⟩

theorem contentChars_scalar (hq : ¬ q.IsHigh) (l : Literal) :
    contentChars (.hex q :: l) = Char.ofNat q.code :: contentChars l :=
  contentChars_hex fun h => hq h.1

theorem contentChars_pair (hq : q.IsHigh) (hr : r.IsLow) (l : Literal) :
    contentChars (.hex q :: .hex r :: l) = surrogatePair q.code r.code :: contentChars l := by
  rw [contentChars, if_pos ⟨hq, hr⟩]

theorem Paired.append (h : Paired l) (h' : Paired l') : Paired (l ++ l') := by
  induction h with
  | nil => exact h'
  | plain _ ih => exact .plain ih
  | short _ ih => exact .short ih
  | scalar hq hq' _ ih => exact .scalar hq hq' ih
  | pair hq hr _ ih => exact .pair hq hr ih

theorem Paired.contentChars_append (h : Paired l) (l' : Literal) :
    contentChars (l ++ l') = contentChars l ++ contentChars l' := by
  induction h with
  | nil => rfl
  | plain _ ih => exact congrArg (_ :: ·) ih
  | short _ ih => exact congrArg (_ :: ·) ih
  | scalar hq _ _ ih =>
    rw [List.cons_append, contentChars_scalar hq, contentChars_scalar hq, ih]
    rfl
  | pair hq hr _ ih =>
    rw [List.cons_append, List.cons_append, contentChars_pair hq hr,
      contentChars_pair hq hr, ih]
    rfl

theorem exists_plain (h : ∀ b ∈ Utf8.encode cs, b ≠ 0x22 ∧ b ≠ 0x5C ∧ ¬ b < 0x20) :
    ∃ l : Literal, body l = cs ∧ l.Paired ∧ contentChars l = cs := by
  induction cs with
  | nil => exact ⟨[], rfl, .nil, rfl⟩
  | cons c cs ih =>
    rw [Utf8.encode_cons] at h
    obtain ⟨l, hb, hp, hc⟩ := ih fun b hb => h b (List.mem_append_right _ hb)
    have hplain : 0x20 ≤ c.toNat ∧ c ≠ '"' ∧ c ≠ '\\' := by
      by_cases hlt : c.toNat < 0x80
      · rw [Utf8.encodeChar_ascii hlt] at h
        obtain ⟨hq, hs, hlow⟩ := h _ (List.mem_append_left _ List.mem_cons_self)
        rw [UInt8.lt_iff_toNat_lt, Utf8.toNat_ofNat_of_lt (by omega)] at hlow
        refine ⟨Nat.not_lt.mp hlow, ?_, ?_⟩
        · rintro rfl
          exact hq rfl
        · rintro rfl
          exact hs rfl
      · refine ⟨by omega, ?_, ?_⟩
        · rintro rfl
          exact hlt (by decide)
        · rintro rfl
          exact hlt (by decide)
    exact ⟨.plain ⟨c, hplain⟩ :: l, congrArg (c :: ·) hb, .plain hp, congrArg (c :: ·) hc⟩

end Literal

end Grammar

open Grammar

def hexOctets (q : HexQuad) : List UInt8 :=
  Utf8.encode (StringUnit.hex q).chars

theorem hexOctets_eq (q : HexQuad) : hexOctets q = 0x5C :: 0x75 :: Utf8.encode q.chars := rfl

/-- What a string is written with, octet by octet or escape by escape, and its content. -/
inductive Spelt : List UInt8 → List UInt8 → Prop
  | nil : Spelt [] []
  | octet : Spelt bs ct → b ≠ 0x22 → b ≠ 0x5C → ¬ b < 0x20 → Spelt (bs ++ [b]) (ct ++ [b])
  | escape (l : Literal) : Spelt bs ct → l.Paired → l.contentChars = [c] →
    Spelt (bs ++ Utf8.encode l.body) (ct ++ String.utf8EncodeChar c)

theorem Spelt.exists_literal_append (h : Spelt bs ct)
    (hr : ∀ b ∈ r, b ≠ 0x22 ∧ b ≠ 0x5C ∧ ¬ b < 0x20) (hd : Utf8.decode? (ct ++ r) = some cs) :
    ∃ l : Literal, bs ++ r = Utf8.encode l.body ∧ l.Paired ∧ l.contentChars = cs := by
  induction h generalizing r cs with
  | nil =>
    obtain rfl := Utf8.decode?_eq_some_iff.mp hd
    obtain ⟨l, hl, hp, hc⟩ := Literal.exists_plain hr
    exact ⟨l, by rw [hl, List.nil_append], hp, hc⟩
  | @octet bs ct b _ hq hs hlow ih =>
    rw [List.append_assoc] at hd ⊢
    have hbr : ∀ x ∈ b :: r, x ≠ 0x22 ∧ x ≠ 0x5C ∧ ¬ x < 0x20 := by
      intro x hx
      obtain rfl | hx := List.mem_cons.mp hx
      · exact ⟨hq, hs, hlow⟩
      · exact hr x hx
    exact ih hbr hd
  | escape e _ hp hc ih =>
    rw [List.append_assoc] at hd ⊢
    obtain ⟨ds, es, hds, hes, rfl⟩ := Utf8.decode?_append_encodeChar hd
    obtain ⟨l, hl, hlp, hlc⟩ := ih (r := []) (by simp) (by rwa [List.append_nil])
    obtain rfl := Utf8.decode?_eq_some_iff.mp hes
    obtain ⟨l', hl', hlp', hlc'⟩ := Literal.exists_plain hr
    rw [List.append_nil] at hl
    refine ⟨l ++ (e ++ l'), ?_, hlp.append (hp.append hlp'), ?_⟩
    · rw [Literal.body_append, Literal.body_append, Utf8.encode_append,
        Utf8.encode_append, hl, hl']
    · rw [hlp.contentChars_append, hp.contentChars_append, hlc, hc, hlc']
      rfl

theorem Spelt.exists_literal (h : Spelt bs ct) (hd : Utf8.decode? ct = some cs) :
    ∃ l : Literal, bs = Utf8.encode l.body ∧ l.Paired ∧ l.contentChars = cs := by
  obtain ⟨l, hl, hp, hc⟩ :=
    h.exists_literal_append (r := []) (by simp) (by rwa [List.append_nil])
  exact ⟨l, by rwa [List.append_nil] at hl, hp, hc⟩

def StringMode.Begun : StringMode → List UInt8 → List UInt8 → Prop
  | .plain, bs, ct => Spelt bs ct
  | .escape, bs, ct => ∃ r, bs = r ++ [0x5C] ∧ Spelt r ct
  | .digits none seen, bs, ct =>
    ∃ r, bs = r ++ (0x5C :: 0x75 :: seen.reverse) ∧ seen.length ≤ 3 ∧ Spelt r ct
  | .digits (some high) seen, bs, ct =>
    ∃ r, ∃ q : HexQuad, q.IsHigh ∧ q.code = high ∧
      bs = r ++ (hexOctets q ++ (0x5C :: 0x75 :: seen.reverse)) ∧ seen.length ≤ 3 ∧ Spelt r ct
  | .pairMark high, bs, ct =>
    ∃ r, ∃ q : HexQuad, q.IsHigh ∧ q.code = high ∧ bs = r ++ hexOctets q ∧ Spelt r ct
  | .pairLetter high, bs, ct =>
    ∃ r, ∃ q : HexQuad, q.IsHigh ∧ q.code = high ∧
      bs = r ++ (hexOctets q ++ [0x5C]) ∧ Spelt r ct

namespace StringScan

variable {s t : StringScan}

def Holds (s : StringScan) (bs : List UInt8) : Prop :=
  s.mode.Begun bs s.content.reverse

theorem holds_opened : opened.Holds [] := .nil

theorem holds_push (h : s.push c = .more t) (hs : Spelt r s.content.reverse) (l : Literal)
    (hp : l.Paired) (hc : l.contentChars = [c]) : t.Holds (r ++ Utf8.encode l.body) := by
  obtain rfl := Step.more.inj h
  have he := hs.escape l hp hc
  rw [Holds, List.reverse_append, List.reverse_reverse]
  exact he

theorem isLowSurrogate_iff {q : HexQuad} : isLowSurrogate q.code = true ↔ q.IsLow := by
  simp [isLowSurrogate, HexQuad.IsLow]

theorem isHighSurrogate_iff {q : HexQuad} : isHighSurrogate q.code = true ↔ q.IsHigh := by
  simp [isHighSurrogate, HexQuad.IsHigh]

theorem holds_unit_none {q : HexQuad} (h : s.unit none q.code = .more t)
    (hs : Spelt r s.content.reverse) : t.Holds (r ++ hexOctets q) := by
  simp only [unit] at h
  split at h
  · cases h
  · next hl =>
    split at h
    · next hh =>
      obtain rfl := Step.more.inj h
      exact ⟨r, q, isHighSurrogate_iff.mp hh, rfl, rfl, hs⟩
    · next hh =>
      have hh' : ¬ q.IsHigh := fun hq => hh (isHighSurrogate_iff.mpr hq)
      have hl' : ¬ q.IsLow := fun hq => hl (isLowSurrogate_iff.mpr hq)
      have hp := holds_push h hs [.hex q] (.scalar hh' hl' .nil)
        (Literal.contentChars_scalar hh' [])
      rwa [Literal.body_cons, Literal.body, List.flatMap_nil, List.append_nil] at hp

theorem holds_unit_some {q q' : HexQuad} (h : s.unit (some q.code) q'.code = .more t)
    (hq : q.IsHigh) (hs : Spelt r s.content.reverse) :
    t.Holds (r ++ (hexOctets q ++ hexOctets q')) := by
  simp only [unit] at h
  split at h
  · next hl =>
    have hl' := isLowSurrogate_iff.mp hl
    have hp := holds_push h hs [.hex q, .hex q'] (.pair hq hl' .nil)
      (Literal.contentChars_pair hq hl' [])
    rw [Literal.body_cons, Literal.body_cons, Literal.body, List.flatMap_nil, List.append_nil,
      Utf8.encode_append] at hp
    exact hp
  · cases h

theorem exists_quad (hlen : seen.length ≤ 3) (hlen' : ¬ seen.length < 3)
    (h : hexNumber? (b :: seen).reverse = some n) :
    ∃ q : HexQuad, 0x5C :: 0x75 :: (seen.reverse ++ [b]) = hexOctets q ∧ q.code = n := by
  obtain ⟨z, y, x, rfl⟩ : ∃ z y x, seen = [z, y, x] := by
    match seen with
    | [] => exact absurd hlen' (by simp)
    | [_] => exact absurd hlen' (by simp)
    | [_, _] => exact absurd hlen' (by simp)
    | [z, y, x] => exact ⟨z, y, x, rfl⟩
    | _ :: _ :: _ :: _ :: _ => exact absurd hlen (by simp)
  obtain ⟨q, hq, hn⟩ := HexQuad.exists_of_hexNumber? h
  exact ⟨q, by rw [hexOctets_eq, hq]; rfl, hn⟩

theorem Holds.step (hs : s.Holds bs) (h : s.step b = .more t) : t.Holds (bs ++ [b]) := by
  obtain ⟨mode, content⟩ := s
  cases mode with
  | plain =>
    simp only [StringScan.step] at h
    split at h
    · cases h
    · next hq =>
      split at h
      · next hb =>
        obtain rfl := Step.more.inj h
        subst hb
        exact ⟨bs, rfl, hs⟩
      · next hb =>
        split at h
        · cases h
        · next hlow =>
          obtain rfl := Step.more.inj h
          have he := Spelt.octet hs hq hb hlow
          rw [Holds, List.reverse_cons]
          exact he
  | escape =>
    obtain ⟨r, rfl, hr⟩ := hs
    simp only [StringScan.step] at h
    split at h
    · next hb =>
      obtain rfl := Step.more.inj h
      subst hb
      exact ⟨r, by rw [List.append_assoc]; rfl, by decide, hr⟩
    · split at h
      · next c hc =>
        obtain ⟨e, rfl, rfl⟩ := ShortEscape.exists_of_shortEscape? hc
        have hp := holds_push h hr [.short e] (.short .nil) rfl
        have he := e.shortEscape?_letter.2.2
        rw [Literal.body_cons, Literal.body, List.flatMap_nil, List.append_nil,
          StringUnit.chars, Utf8.encode_cons, Utf8.encode_cons, Utf8.encodeChar_ascii he] at hp
        rw [List.append_assoc]
        exact hp
      · cases h
  | digits high seen =>
    simp only [StringScan.step] at h
    cases high with
    | none =>
      obtain ⟨r, rfl, hlen, hr⟩ := hs
      split at h
      · next hlt =>
        obtain rfl := Step.more.inj h
        exact ⟨r, by simp, hlt, hr⟩
      · next hlt =>
        split at h
        · next n hn =>
          obtain ⟨q, hq, rfl⟩ := exists_quad hlen hlt hn
          have hu := holds_unit_none h hr
          rw [← hq] at hu
          rw [List.append_assoc]
          exact hu
        · cases h
    | some high =>
      obtain ⟨r, p, hp, rfl, rfl, hlen, hr⟩ := hs
      split at h
      · next hlt =>
        obtain rfl := Step.more.inj h
        exact ⟨r, p, hp, rfl, by simp, hlt, hr⟩
      · next hlt =>
        split at h
        · next n hn =>
          obtain ⟨q, hq, rfl⟩ := exists_quad hlen hlt hn
          have hu := holds_unit_some h hp hr
          rw [← hq] at hu
          rw [List.append_assoc, List.append_assoc]
          exact hu
        · cases h
  | pairMark high =>
    obtain ⟨r, q, hq, rfl, rfl, hr⟩ := hs
    simp only [StringScan.step] at h
    split at h
    · next hb =>
      obtain rfl := Step.more.inj h
      subst hb
      exact ⟨r, q, hq, rfl, List.append_assoc .., hr⟩
    · cases h
  | pairLetter high =>
    obtain ⟨r, q, hq, rfl, rfl, hr⟩ := hs
    simp only [StringScan.step] at h
    split at h
    · next hb =>
      obtain rfl := Step.more.inj h
      subst hb
      exact ⟨r, q, hq, rfl, by rw [List.append_assoc, List.append_assoc]; rfl, by decide, hr⟩
    · cases h

def next? (s : StringScan) (b : UInt8) : Option StringScan :=
  match s.step b with
  | .more t => some t
  | _ => none

theorem next?_eq_some_iff : s.next? b = some t ↔ s.step b = .more t := by
  rw [next?]
  constructor
  · intro h
    split at h
    · next t' hs =>
      obtain rfl := Option.some.inj h
      exact hs
    · cases h
  · intro h
    rw [h]

def feed (s : StringScan) (bs : List UInt8) : Option StringScan :=
  bs.foldlM next? s

theorem feed_cons (h : s.step b = .more t) (bs : List UInt8) :
    s.feed (b :: bs) = t.feed bs := by
  rw [feed, List.foldlM_cons, next?_eq_some_iff.mpr h]
  rfl

theorem exists_step_of_feed (h : s.feed (b :: bs) = some t) :
    ∃ s', s.step b = .more s' ∧ s'.feed bs = some t := by
  rw [feed, List.foldlM_cons] at h
  obtain ⟨s', hs, hf⟩ := Option.bind_eq_some_iff.mp h
  exact ⟨s', next?_eq_some_iff.mp hs, hf⟩

theorem feed_append (h : s.feed bs = some t) (cs : List UInt8) :
    s.feed (bs ++ cs) = t.feed cs := by
  rw [feed] at h
  rw [feed, List.foldlM_append, h]
  rfl

theorem Holds.feed (hs : s.Holds bs) (h : s.feed r = some t) : t.Holds (bs ++ r) := by
  induction r generalizing s bs with
  | nil =>
    obtain rfl := Option.some.inj h
    rwa [List.append_nil]
  | cons b r ih =>
    obtain ⟨s', hs', hf⟩ := exists_step_of_feed h
    have ht := ih (hs.step hs') hf
    rwa [List.append_assoc, List.singleton_append] at ht

theorem unit_ne_closed : s.unit high n ≠ .closed ct := by
  intro h
  cases high with
  | none =>
    simp only [unit] at h
    split at h
    · cases h
    · split at h
      · cases h
      · cases h
  | some high =>
    simp only [unit] at h
    split at h
    · cases h
    · cases h

theorem exists_mode_of_closed (h : s.step b = .closed ct) :
    b = 0x22 ∧ s.mode = .plain ∧ ct = s.content.reverse := by
  obtain ⟨mode, content⟩ := s
  cases mode with
  | plain =>
    simp only [StringScan.step] at h
    split at h
    · next hb => exact ⟨hb, rfl, (Step.closed.inj h).symm⟩
    · split at h
      · cases h
      · split at h
        · cases h
        · cases h
  | escape =>
    simp only [StringScan.step] at h
    split at h
    · cases h
    · split at h
      · cases h
      · cases h
  | digits high seen =>
    simp only [StringScan.step] at h
    split at h
    · cases h
    · split at h
      · exact absurd h unit_ne_closed
      · cases h
  | pairMark high =>
    simp only [StringScan.step] at h
    split at h
    · cases h
    · cases h
  | pairLetter high =>
    simp only [StringScan.step] at h
    split at h
    · cases h
    · cases h

theorem decode_eq_ok_iff :
    decode ct = .ok text ↔ ∃ cs, Utf8.decode? ct = some cs ∧ text = String.ofList cs := by
  rw [decode]
  constructor
  · intro h
    split at h
    · next cs hcs => exact ⟨cs, hcs, (Except.ok.inj h).symm⟩
    · cases h
  · rintro ⟨cs, hcs, rfl⟩
    rw [hcs]

/-- A string that is closed and is UTF-8 is a literal. -/
theorem exists_literal (hf : opened.feed r = some s) (hb : s.step b = .closed ct)
    (hd : decode ct = .ok text) :
    ∃ l : Literal, r ++ [b] = Utf8.encode (l.body ++ ['"']) ∧ l.Paired ∧ text = l.content := by
  obtain ⟨rfl, hm, rfl⟩ := exists_mode_of_closed hb
  obtain ⟨cs, hcs, rfl⟩ := decode_eq_ok_iff.mp hd
  have hs := holds_opened.feed hf
  rw [Holds, hm] at hs
  obtain ⟨l, rfl, hp, rfl⟩ := Spelt.exists_literal hs hcs
  exact ⟨l, (Utf8.encode_append l.body ['"']).symm, hp, rfl⟩

def Adds (r : List UInt8) (cs : List Char) : Prop :=
  ∀ ct, feed ⟨.plain, ct⟩ r = some ⟨.plain, (Utf8.encode cs).reverse ++ ct⟩

theorem Adds.append (h : Adds r cs) (h' : Adds r' ds) : Adds (r ++ r') (cs ++ ds) := by
  intro ct
  rw [feed_append (h ct), h', Utf8.encode_append, List.reverse_append, List.append_assoc]

theorem adds_octets (h : ∀ b ∈ r, b ≠ 0x22 ∧ b ≠ 0x5C ∧ ¬ b < 0x20) (ct : List UInt8) :
    feed ⟨.plain, ct⟩ r = some ⟨.plain, r.reverse ++ ct⟩ := by
  induction r generalizing ct with
  | nil => rfl
  | cons b r ih =>
    obtain ⟨hq, hs, hlow⟩ := h b List.mem_cons_self
    have hb : StringScan.step ⟨.plain, ct⟩ b = .more ⟨.plain, b :: ct⟩ :=
      (if_neg hq).trans ((if_neg hs).trans (if_neg hlow))
    rw [feed_cons hb, ih fun x hx => h x (List.mem_cons_of_mem b hx), List.reverse_cons,
      List.append_assoc]
    rfl

theorem adds_plain (c : PlainChar) : Adds (Utf8.encode [c.val]) [c.val] := by
  apply adds_octets
  intro b hb
  rw [Utf8.encode_cons, Utf8.encode_nil, List.append_nil] at hb
  obtain ⟨hlow, hq, hs⟩ := c.property
  by_cases hlt : c.val.toNat < 0x80
  · rw [Utf8.encodeChar_ascii hlt] at hb
    obtain rfl := List.mem_singleton.mp hb
    have hc := Utf8.ofUInt8_ofNat hlt
    refine ⟨fun h => hq ?_, fun h => hs ?_, ?_⟩
    · rw [← hc, h]
      rfl
    · rw [← hc, h]
      rfl
    · rw [UInt8.lt_iff_toNat_lt, Utf8.toNat_ofNat_of_lt (by omega)]
      exact Nat.not_lt.mpr hlow
  · have hb' := Utf8.le_of_mem_encodeChar (Nat.not_lt.mp hlt) hb
    refine ⟨?_, ?_, ?_⟩
    · rintro rfl
      exact absurd hb' (by decide)
    · rintro rfl
      exact absurd hb' (by decide)
    · rw [UInt8.lt_iff_toNat_lt]
      exact Nat.not_lt.mpr (Nat.le_trans (by decide) hb')

theorem push_eq (s : StringScan) (c : Char) :
    s.push c = .more ⟨.plain, (Utf8.encode [c]).reverse ++ s.content⟩ := by
  rw [push, Utf8.encode_cons, Utf8.encode_nil, List.append_nil]

theorem adds_short (e : ShortEscape) :
    Adds (Utf8.encode (StringUnit.short e).chars) [e.char] := by
  intro ct
  obtain ⟨hc, hu, hlt⟩ := e.shortEscape?_letter
  have hb : StringScan.step ⟨.escape, ct⟩ (UInt8.ofNat e.letter.toNat) =
      push ⟨.escape, ct⟩ e.char := by
    simp only [StringScan.step, if_neg hu, hc]
  rw [push_eq] at hb
  have hs : StringScan.step ⟨.plain, ct⟩ 0x5C = .more ⟨.escape, ct⟩ := rfl
  rw [StringUnit.chars, Utf8.encode_cons, Utf8.encode_cons, Utf8.encodeChar_ascii hlt]
  exact (feed_cons hs _).trans (feed_cons hb [])

theorem feed_quad (q : HexQuad) (h : ∀ mode, unit ⟨mode, ct⟩ high q.code = .more t) :
    feed ⟨.digits high [], ct⟩ (Utf8.encode q.chars) = some t := by
  have hn := q.hexNumber?
  rw [q.encode_chars] at hn ⊢
  generalize UInt8.ofNat q.first.val.toNat = a at hn ⊢
  generalize UInt8.ofNat q.second.val.toNat = b at hn ⊢
  generalize UInt8.ofNat q.third.val.toNat = c at hn ⊢
  generalize UInt8.ofNat q.fourth.val.toNat = d at hn ⊢
  have h₁ : StringScan.step ⟨.digits high [], ct⟩ a = .more ⟨.digits high [a], ct⟩ := rfl
  have h₂ : StringScan.step ⟨.digits high [a], ct⟩ b = .more ⟨.digits high [b, a], ct⟩ := rfl
  have h₃ : StringScan.step ⟨.digits high [b, a], ct⟩ c =
    .more ⟨.digits high [c, b, a], ct⟩ := rfl
  have h₄ : StringScan.step ⟨.digits high [c, b, a], ct⟩ d = .more t := by
    rw [StringScan.step]
    simp only [List.length_cons, List.length_nil, Nat.lt_irrefl, if_false, List.reverse_cons,
      List.reverse_nil, List.nil_append, List.cons_append, hn]
    exact h _
  rw [feed_cons h₁, feed_cons h₂, feed_cons h₃, feed_cons h₄]
  rfl

theorem feed_hexOctets (q : HexQuad) (h : ∀ mode, unit ⟨mode, ct⟩ none q.code = .more t) :
    feed ⟨.plain, ct⟩ (hexOctets q) = some t := by
  have h₁ : StringScan.step ⟨.plain, ct⟩ 0x5C = .more ⟨.escape, ct⟩ := rfl
  have h₂ : StringScan.step ⟨.escape, ct⟩ 0x75 = .more ⟨.digits none [], ct⟩ := rfl
  rw [hexOctets_eq, feed_cons h₁, feed_cons h₂, feed_quad q h]

theorem adds_scalar (hq : ¬ q.IsHigh) (hq' : ¬ q.IsLow) :
    Adds (hexOctets q) [Char.ofNat q.code] := by
  intro ct
  apply feed_hexOctets q
  intro mode
  have hh : ¬ isHighSurrogate q.code = true := fun h => hq (isHighSurrogate_iff.mp h)
  have hl : ¬ isLowSurrogate q.code = true := fun h => hq' (isLowSurrogate_iff.mp h)
  rw [unit, if_neg hl, if_neg hh, push_eq]

theorem adds_pair {q r : HexQuad} (hq : q.IsHigh) (hr : r.IsLow) :
    Adds (hexOctets q ++ hexOctets r) [surrogatePair q.code r.code] := by
  intro ct
  have hh := isHighSurrogate_iff.mpr hq
  have hl : ¬ isLowSurrogate q.code = true := by
    intro h
    have hl := isLowSurrogate_iff.mp h
    have := hq.2
    have := hl.1
    omega
  have h₁ : feed ⟨.plain, ct⟩ (hexOctets q) = some ⟨.pairMark q.code, ct⟩ :=
    feed_hexOctets q fun mode => by rw [unit, if_neg hl, if_pos hh]
  have h₂ : StringScan.step ⟨.pairMark q.code, ct⟩ 0x5C = .more ⟨.pairLetter q.code, ct⟩ := rfl
  have h₃ : StringScan.step ⟨.pairLetter q.code, ct⟩ 0x75 =
    .more ⟨.digits (some q.code) [], ct⟩ := rfl
  rw [feed_append h₁, hexOctets_eq r, feed_cons h₂, feed_cons h₃]
  exact feed_quad r fun mode => by rw [unit, if_pos (isLowSurrogate_iff.mpr hr), push_eq]

theorem adds_body (h : Literal.Paired l) :
    Adds (Utf8.encode (Literal.body l)) (Literal.contentChars l) := by
  induction h with
  | nil =>
    intro ct
    rfl
  | @plain l c _ ih =>
    rw [Literal.body_cons, Utf8.encode_append]
    exact (adds_plain c).append ih
  | @short l e _ ih =>
    rw [Literal.body_cons, Utf8.encode_append]
    exact (adds_short e).append ih
  | @scalar q l hq hq' _ ih =>
    rw [Literal.body_cons, Utf8.encode_append, Literal.contentChars_scalar hq]
    exact (adds_scalar hq hq').append ih
  | @pair q r l hq hr _ ih =>
    rw [Literal.body_cons, Literal.body_cons, Utf8.encode_append, Utf8.encode_append,
      ← List.append_assoc, Literal.contentChars_pair hq hr]
    exact (adds_pair hq hr).append ih

/-- The inside of a literal is scanned to the quote, and its content is the text it stands for.
-/
theorem feed_body (h : Literal.Paired l) :
    ∃ s, opened.feed (Utf8.encode (Literal.body l)) = some s ∧
      s.step 0x22 = .closed (Utf8.encode (Literal.contentChars l)) := by
  refine ⟨_, adds_body h [], ?_⟩
  rw [List.append_nil, StringScan.step]
  simp only [if_true, List.reverse_reverse]

theorem decode_content (l : Literal) :
    decode (Utf8.encode l.contentChars) = .ok l.content :=
  decode_eq_ok_iff.mpr ⟨l.contentChars, Utf8.decode?_encode _, rfl⟩

end StringScan

end SchemaSnapshot.Json
