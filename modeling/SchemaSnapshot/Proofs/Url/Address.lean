import SchemaSnapshot.Proofs.Text.Ascii
import SchemaSnapshot.Proofs.Text.Split
import SchemaSnapshot.Url.Ipv6

namespace SchemaSnapshot

open Text (split)

namespace Ipv4

theorem digits?_append (base : Nat) (cs : List Char) (c : Char) :
    digits? base (cs ++ [c]) = (digits? base cs).bind fun n =>
      (Hex.value? c.toNat).bind fun d => if d < base then some (n * base + d) else none := by
  rw [digits?, List.foldl_append]
  rfl

theorem digits?_toDigits (hb : 1 < base) (hb' : base ≤ 16) (n : Nat) :
    digits? base (Nat.toDigits base n) = some n := by
  induction n using Nat.strong_induction_on with
  | _ n ih =>
    have hsingle (d : Nat) (h : d < base) : Hex.value? d.digitChar.toNat = some d :=
      Hex.value?_digitChar d (Nat.lt_of_lt_of_le h hb')
    by_cases hn : n < base
    · rw [Nat.toDigits_of_lt_base hn, ← List.nil_append [_], digits?_append, hsingle n hn]
      simp [digits?, hn]
    · have hd : n % base < base := Nat.mod_lt n (by omega)
      rw [Nat.toDigits_of_base_le hb (by omega), digits?_append,
        ih (n / base) (Nat.div_lt_self (by omega) hb), hsingle _ hd]
      simp [hd, Nat.div_add_mod']

theorem head_toDigits (hb : 1 < base) (hb' : base ≤ 16) (hn : 0 < n) :
    ∃ c r, Nat.toDigits base n = c :: r ∧ c ≠ '0' := by
  induction n using Nat.strong_induction_on with
  | _ n ih =>
    by_cases hlt : n < base
    · refine ⟨_, [], Nat.toDigits_of_lt_base hlt, ?_⟩
      rw [ne_eq, Nat.digitChar_eq_zero]
      omega
    · have hq : 0 < n / base := Nat.div_pos (by omega) (by omega)
      obtain ⟨c, r, h, hc⟩ := ih (n / base) (Nat.div_lt_self hn hb) hq
      refine ⟨c, r ++ [(n % base).digitChar], ?_, hc⟩
      rw [Nat.toDigits_of_base_le hb (by omega), h]
      rfl

theorem number?_toDigits (n : Nat) : number? (Nat.toDigits 10 n) = some n := by
  have hd := digits?_toDigits (show 1 < 10 by decide) (by decide) n
  by_cases hn : 0 < n
  · obtain ⟨c, r, h, hc⟩ := head_toDigits (show 1 < 10 by decide) (by decide) hn
    rw [h] at hd ⊢
    rw [← hd]
    unfold number?
    split
    all_goals simp_all
  · obtain rfl : n = 0 := by omega
    rfl

theorem isDigit_of_mem (h : c ∈ Nat.toDigits 10 n) : c.isDigit = true :=
  Nat.isDigit_of_mem_toDigits (by decide) (by decide) h

theorem split_chars (a : Ipv4) :
    split (· = '.') a.chars = a.octetsOf.map (Nat.toDigits 10) := by
  refine Text.split_intercalate (by decide) ?_ (List.cons_ne_nil _ _)
  intro q hq c hc
  obtain ⟨n, -, rfl⟩ := List.mem_map.mp hq
  have hd := isDigit_of_mem hc
  rw [decide_eq_false_iff_not]
  rintro rfl
  exact absurd hd (by decide)

theorem labels_chars (a : Ipv4) : labels a.chars = a.octetsOf.map (Nat.toDigits 10) := by
  have hl : (a.octetsOf.map (Nat.toDigits 10)).getLast? ≠ some [] := by
    intro h
    exact Nat.toDigits_ne_nil (Option.some.inj h)
  rw [labels, split_chars]
  exact if_neg fun h => hl h.2

theorem isMeant_chars (a : Ipv4) : isMeant a.chars = true := by
  have hd : (Nat.toDigits 10 (a.value.toNat % 256)).all Char.isDigit = true :=
    List.all_eq_true.mpr fun c => isDigit_of_mem
  rw [isMeant, labels_chars]
  show (decide (Nat.toDigits 10 (a.value.toNat % 256) ≠ []) &&
    (Nat.toDigits 10 (a.value.toNat % 256)).all Char.isDigit || _) = true
  rw [hd, decide_eq_true Nat.toDigits_ne_nil]
  rfl

theorem ofNumbers?_octetsOf (a : Ipv4) : ofNumbers? a.octetsOf = some a := by
  obtain ⟨v⟩ := a
  have hv : v.toNat < 4294967296 := v.toNat_lt
  have hle : v.toNat / 0x1000000 ≤ 255 ∧ v.toNat / 0x10000 % 256 ≤ 255 ∧
      v.toNat / 0x100 % 256 ≤ 255 ∧ v.toNat % 256 < 256 := by
    omega
  have hsum : ((v.toNat / 0x1000000 * 256 + v.toNat / 0x10000 % 256) * 256 +
      v.toNat / 0x100 % 256) * 256 + v.toNat % 256 = v.toNat := by
    omega
  simp [ofNumbers?, octetsOf, hle, hsum]

theorem ofName?_chars (a : Ipv4) : ofName? a.chars = some a := by
  have hm : (a.octetsOf.map (Nat.toDigits 10)).mapM number? = some a.octetsOf := by
    simp [octetsOf, number?_toDigits]
  rw [ofName?, labels_chars, hm]
  exact ofNumbers?_octetsOf a

theorem forall_mem_chars (a : Ipv4) : ∀ c ∈ a.chars, c = '.' ∨ c.isDigit = true := by
  refine Text.forall_mem_intercalate (P := fun c => c = '.' ∨ c.isDigit = true) (.inl rfl) ?_
  intro q hq c hc
  obtain ⟨n, -, rfl⟩ := List.mem_map.mp hq
  exact .inr (isDigit_of_mem hc)

end Ipv4

namespace Ipv6

variable {ps l r : List UInt16}

def pieceChars (p : UInt16) : List Char :=
  Nat.toDigits 16 p.toNat

theorem pieceChars_ne_nil (p : UInt16) : pieceChars p ≠ [] :=
  Nat.toDigits_ne_nil

theorem isAlphanum_of_mem {p : UInt16} (h : c ∈ pieceChars p) : c.isAlphanum = true :=
  isAlphanum_of_mem_toDigits h

theorem ne_of_mem {p : UInt16} (h : c ∈ pieceChars p) : c ≠ ':' ∧ c ≠ '.' := by
  have ha := isAlphanum_of_mem h
  constructor
  · rintro rfl
    exact absurd ha (by decide)
  · rintro rfl
    exact absurd ha (by decide)

theorem piece?_pieceChars (p : UInt16) : piece? (pieceChars p) = some p := by
  have hl : (pieceChars p).length ≤ 4 :=
    (Nat.length_toDigits_le_iff (by decide) (by decide)).mpr p.toNat_lt
  rw [piece?, if_pos ⟨pieceChars_ne_nil p, hl⟩, pieceChars,
    Ipv4.digits?_toDigits (by decide) (by decide)]
  exact congrArg some UInt16.ofNat_toNat

theorem piecesChars_cons (p q : UInt16) (ps : List UInt16) :
    piecesChars (p :: q :: ps) = pieceChars p ++ ':' :: piecesChars (q :: ps) := by
  rw [piecesChars, List.map_cons, List.map_cons, List.intercalate_cons_cons, List.append_assoc]
  rfl

theorem exists_piecesChars (p : UInt16) (ps : List UInt16) :
    ∃ c r, piecesChars (p :: ps) = c :: r ∧ c ≠ ':' := by
  obtain ⟨c, r, h⟩ := List.exists_cons_of_ne_nil (pieceChars_ne_nil p)
  have hc : c ≠ ':' := (ne_of_mem (p := p) (by simp [h])).1
  cases ps with
  | nil => exact ⟨c, r, (List.intercalate_singleton).trans h, hc⟩
  | cons q ps =>
    rw [piecesChars_cons, h]
    exact ⟨c, _, rfl, hc⟩

theorem colonParts_piecesChars (ps : List UInt16) :
    colonParts (piecesChars ps) = ps.map pieceChars := by
  cases ps with
  | nil => rfl
  | cons p ps =>
    have hs : split (· = ':') (piecesChars (p :: ps)) = (p :: ps).map pieceChars := by
      refine Text.split_intercalate (by decide) ?_ (List.cons_ne_nil _ _)
      intro q hq c hc
      obtain ⟨p, -, rfl⟩ := List.mem_map.mp hq
      exact decide_eq_false (ne_of_mem hc).1
    have hn : piecesChars (p :: ps) ≠ [] := by
      obtain ⟨c, r, h, -⟩ := exists_piecesChars p ps
      rw [h]
      exact List.cons_ne_nil c r
    rw [colonParts, if_neg hn, hs]

theorem mapM_piece?_map (ps : List UInt16) : (ps.map pieceChars).mapM piece? = some ps := by
  induction ps with
  | nil => rfl
  | cons p ps ih => simp [piece?_pieceChars, ih]

theorem group?_map (ps : List UInt16) : group? (ps.map pieceChars) = some ps := by
  induction ps with
  | nil => rfl
  | cons p ps ih =>
    cases ps with
    | nil =>
      have hd : '.' ∉ pieceChars p := fun h => (ne_of_mem h).2 rfl
      simp [group?, hd, piece?_pieceChars]
    | cons q ps =>
      rw [List.map_cons, List.map_cons, group?, ← List.map_cons, ih, piece?_pieceChars]
      · rfl
      · simp

theorem splitGap_cons (h : c ≠ ':') (r : List Char) :
    splitGap (c :: r) = (c :: (splitGap r).1, (splitGap r).2) := by
  rw [splitGap]
  rintro r' rfl
  exact absurd rfl h

theorem splitGap_append (h : ∀ c ∈ cs, c ≠ ':') (r : List Char) :
    splitGap (cs ++ r) = (cs ++ (splitGap r).1, (splitGap r).2) := by
  induction cs with
  | nil => rfl
  | cons c cs ih =>
    obtain ⟨hc, ht⟩ := List.forall_mem_cons.mp h
    rw [List.cons_append, splitGap_cons hc, ih ht]
    rfl

theorem splitGap_piecesChars (ps : List UInt16) (r : List Char) :
    splitGap (piecesChars ps ++ r) = (piecesChars ps ++ (splitGap r).1, (splitGap r).2) := by
  have hp (p : UInt16) : ∀ c ∈ pieceChars p, c ≠ ':' := fun c hc => (ne_of_mem hc).1
  induction ps with
  | nil => rfl
  | cons p ps ih =>
    cases ps with
    | nil =>
      have hs : piecesChars [p] = pieceChars p := List.intercalate_singleton
      rw [hs, splitGap_append (hp p)]
    | cons q ps =>
      obtain ⟨c, t, ht, hc⟩ := exists_piecesChars q ps
      have hcolon : splitGap (':' :: (piecesChars (q :: ps) ++ r)) =
          (':' :: (splitGap (piecesChars (q :: ps) ++ r)).1,
            (splitGap (piecesChars (q :: ps) ++ r)).2) := by
        rw [ht, List.cons_append, splitGap]
        rintro r' -
        simp [hc]
      rw [piecesChars_cons, List.append_assoc, List.cons_append, splitGap_append (hp p), hcolon,
        ih]
      simp

theorem longestRun_eq (i : Nat) (ps : List UInt16) :
    ∃ l r, ps = l ++ (List.replicate (longestRun i ps).2 0 ++ r) ∧
      (longestRun i ps).1 = i + l.length := by
  induction ps generalizing i with
  | nil => exact ⟨[], [], rfl, rfl⟩
  | cons p ps ih =>
    obtain ⟨l, r, hp, hl⟩ := ih (i + 1)
    rw [longestRun]
    dsimp only
    split
    · exact ⟨p :: l, r, congrArg (p :: ·) hp, by rw [hl, List.length_cons]; omega⟩
    · refine ⟨[], (p :: ps).dropWhile (· = 0), ?_, rfl⟩
      have hz : (p :: ps).takeWhile (· = 0) = List.replicate (zeros (p :: ps)) 0 := by
        refine List.eq_replicate_iff.mpr ⟨rfl, fun q hq => ?_⟩
        simpa using List.mem_takeWhile_imp hq
      rw [List.nil_append, ← hz, List.takeWhile_append_dropWhile]

theorem ofChars?_piecesChars (h : ps.length = 8) :
    ofChars? (piecesChars ps) = some ⟨ps, h⟩ := by
  have hs := splitGap_piecesChars ps []
  rw [List.append_nil] at hs
  rw [ofChars?, hs]
  simp [splitGap, colonParts_piecesChars, group?_map, ofPieces?, h]

/-- The pieces that a gap leaves out are zeros. -/
theorem ofChars?_gap (h : (l ++ (List.replicate n 0 ++ r)).length = 8) (hn : 0 < n) :
    ofChars? (piecesChars l ++ [':', ':'] ++ piecesChars r) =
      some ⟨l ++ (List.replicate n 0 ++ r), h⟩ := by
  have hs := splitGap_piecesChars l (':' :: ':' :: piecesChars r)
  have hlen : l.length + (n + r.length) = 8 := by simpa using h
  have hle : l.length + r.length ≤ 7 := by omega
  have hgap : 8 - (l.length + r.length) = n := by omega
  have hgroup : ofPieces? (l ++ List.replicate n 0 ++ r) =
      some ⟨l ++ (List.replicate n 0 ++ r), h⟩ := by
    simp [ofPieces?, hlen]
  rw [ofChars?, List.append_assoc, List.cons_append, List.singleton_append, hs]
  simp only [splitGap, List.append_nil, colonParts_piecesChars, mapM_piece?_map, group?_map]
  show (if l.length + r.length ≤ 7 then _ else _) = _
  rw [if_pos hle, hgap, hgroup]

theorem chars_cases (a : Ipv6) :
    a.chars = piecesChars a.pieces ∨
      ∃ l n r, a.pieces = l ++ (List.replicate n 0 ++ r) ∧ 0 < n ∧
        a.chars = piecesChars l ++ [':', ':'] ++ piecesChars r := by
  obtain ⟨l, r, hp, hl⟩ := longestRun_eq 0 a.pieces
  rw [chars]
  rcases hrun : longestRun 0 a.pieces with ⟨i, n⟩
  rw [hrun] at hp hl
  dsimp only at hp hl ⊢
  obtain rfl : i = l.length := by omega
  split
  · next hn =>
    have htake : a.pieces.take l.length = l := by rw [hp, List.take_left]
    have hdrop : a.pieces.drop (l.length + n) = r := by
      rw [hp, ← List.drop_drop, List.drop_left, List.drop_left' List.length_replicate]
    rw [htake, hdrop]
    exact .inr ⟨l, n, r, hp, by omega, rfl⟩
  · exact .inl rfl

theorem ofChars?_chars (a : Ipv6) : ofChars? a.chars = some a := by
  obtain h | ⟨l, n, r, hp, hn, h⟩ := a.chars_cases
  · rw [h]
    exact ofChars?_piecesChars a.length_eq
  · obtain ⟨ps, hlen⟩ := a
    subst hp
    rw [h]
    exact ofChars?_gap hlen hn

theorem forall_mem_piecesChars (ps : List UInt16) :
    ∀ c ∈ piecesChars ps, c = ':' ∨ c.isAlphanum = true := by
  refine Text.forall_mem_intercalate (P := fun c => c = ':' ∨ c.isAlphanum = true) (.inl rfl) ?_
  intro q hq c hc
  obtain ⟨p, -, rfl⟩ := List.mem_map.mp hq
  exact .inr (isAlphanum_of_mem hc)

theorem forall_mem_chars (a : Ipv6) : ∀ c ∈ a.chars, c = ':' ∨ c.isAlphanum = true := by
  obtain h | ⟨l, n, r, -, -, h⟩ := a.chars_cases
  · rw [h]
    exact forall_mem_piecesChars _
  · have hgap : ∀ c ∈ [':', ':'], c = ':' ∨ c.isAlphanum = true :=
      List.forall_mem_cons.mpr ⟨.inl rfl, List.forall_mem_singleton.mpr (.inl rfl)⟩
    rw [h, List.forall_mem_append, List.forall_mem_append]
    exact ⟨⟨forall_mem_piecesChars l, hgap⟩, forall_mem_piecesChars r⟩

end Ipv6

end SchemaSnapshot
