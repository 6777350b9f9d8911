import SchemaSnapshot.Proofs.Text.Ascii
import SchemaSnapshot.Text.Quoted

namespace SchemaSnapshot.Text

/-- Where a character stands in a quoted text; of digits in braces, the number so far. -/
inductive Spot where
  | plain
  | escape
  | brace
  | code (n? : Option Nat)

/-- What a letter after a backslash stands for. -/
def ofLetter? : Char → Option Char
  | '"' => some '"'
  | '\\' => some '\\'
  | 'n' => some '\n'
  | 'r' => some '\r'
  | 't' => some '\t'
  | '0' => some '\x00'
  | _ => none

/-- What stands before the closing quote, with its escapes undone. A quote that is not escaped
closes the text, so nothing may follow it. -/
def unescapeFrom? : Spot → List Char → Option (List Char)
  | _, [] => none
  | .plain, c :: cs =>
    if c = '"' then if cs = [] then some [] else none
    else if c = '\\' then unescapeFrom? .escape cs
    else (unescapeFrom? .plain cs).map (c :: ·)
  | .escape, c :: cs =>
    if c = 'u' then unescapeFrom? .brace cs
    else (ofLetter? c).bind fun d => (unescapeFrom? .plain cs).map (d :: ·)
  | .brace, c :: cs => if c = '{' then unescapeFrom? (.code none) cs else none
  | .code n?, c :: cs =>
    if c = '}' then
      n?.bind fun n =>
        if n.isValidChar then (unescapeFrom? .plain cs).map (Char.ofNat n :: ·) else none
    else
      (Hex.value? c.toNat).bind fun d => unescapeFrom? (.code (some (n?.getD 0 * 16 + d))) cs

/-- The text that stands in quotes. -/
def unquote? : List Char → Option (List Char)
  | '"' :: cs => unescapeFrom? .plain cs
  | _ => none

def IsControl (c : Char) : Prop :=
  c.toNat ≤ 0x1F ∨ 0x7F ≤ c.toNat ∧ c.toNat ≤ 0x9F

/-- What parts lines or paragraphs and is no control. -/
def IsSeparator (c : Char) : Prop :=
  c.toNat = 0x2028 ∨ c.toNat = 0x2029

/-- It can stand in a line without ending it or acting on what shows it. -/
def StaysInLine (c : Char) : Prop := ¬ IsControl c ∧ ¬ IsSeparator c

instance : DecidablePred IsControl := fun _ => inferInstanceAs (Decidable (_ ∨ _))

instance : DecidablePred IsSeparator := fun _ => inferInstanceAs (Decidable (_ ∨ _))

instance : DecidablePred StaysInLine := fun _ => inferInstanceAs (Decidable (_ ∧ _))

variable {c : Char} {cs p r : List Char} {spot : Spot}

theorem unescapeFrom?_digit (n? : Option Nat) (h : d < 16) (cs : List Char) :
    unescapeFrom? (.code n?) (d.digitChar :: cs) =
      unescapeFrom? (.code (some (n?.getD 0 * 16 + d))) cs := by
  have hb : ∀ d < 16, d.digitChar ≠ '}' := by
    decide
  rw [unescapeFrom?, if_neg (hb d h), Hex.value?_digitChar d h]
  rfl

theorem unescapeFrom?_hexDigits (n : Nat) (cs : List Char) :
    unescapeFrom? (.code none) (hexDigits n ++ cs) = unescapeFrom? (.code (some n)) cs := by
  rw [hexDigits]
  induction n using Nat.strongRecOn generalizing cs with
  | _ n ih =>
    by_cases hn : n < 16
    · rw [Nat.toDigits_of_lt_base hn, List.singleton_append, unescapeFrom?_digit none hn]
      simp
    · have hd : n % 16 < 16 := Nat.mod_lt n (by decide)
      rw [Nat.toDigits_of_base_le (by decide) (by omega), List.append_assoc,
        ih (n / 16) (by omega), List.singleton_append, unescapeFrom?_digit (some (n / 16)) hd,
        Option.getD_some, Nat.div_add_mod']

theorem unescapeFrom?_code (c : Char) (cs : List Char) :
    unescapeFrom? .plain (['\\', 'u', '{'] ++ hexDigits c.toNat ++ ['}'] ++ cs) =
      (unescapeFrom? .plain cs).map (c :: ·) := by
  have hopen (r : List Char) :
      unescapeFrom? .plain ('\\' :: 'u' :: '{' :: r) = unescapeFrom? (.code none) r := rfl
  have hclose : unescapeFrom? (.code (some c.toNat)) ('}' :: cs) =
      (unescapeFrom? .plain cs).map (c :: ·) := by
    have hv : c.toNat.isValidChar := c.valid
    rw [unescapeFrom?, if_pos rfl, Option.bind_some, if_pos hv, Char.ofNat_toNat]
  rw [List.append_assoc, List.append_assoc]
  exact (hopen _).trans ((unescapeFrom?_hexDigits c.toNat _).trans hclose)

theorem unescapeFrom?_escapeChar (c : Char) (cs : List Char) :
    unescapeFrom? .plain (escapeChar c ++ cs) = (unescapeFrom? .plain cs).map (c :: ·) := by
  unfold escapeChar
  split
  · rfl
  · rfl
  · rfl
  · rfl
  · rfl
  · rfl
  · next hq hs _ _ _ _ =>
    split
    · rw [List.singleton_append, unescapeFrom?, if_neg hq, if_neg hs]
    · exact unescapeFrom?_code c cs

theorem unquote?_quoteChars (cs : List Char) : unquote? (quoteChars cs) = some cs := by
  have hend : unescapeFrom? .plain (cs.flatMap escapeChar ++ ['"']) = some cs := by
    induction cs with
    | nil => rfl
    | cons c cs ih => rw [List.flatMap_cons, List.append_assoc,
        unescapeFrom?_escapeChar, ih]; rfl
  exact hend

theorem toList_quoted (s : String) : (quoted s).toList = quoteChars s.toList :=
  String.toList_ofList

theorem unquote?_quoted (s : String) : unquote? (quoted s).toList = some s.toList := by
  rw [toList_quoted, unquote?_quoteChars]

theorem quoted_injective (h : quoted s = quoted t) : s = t := by
  have hs := unquote?_quoted s
  rw [h, unquote?_quoted] at hs
  exact String.toList_injective (Option.some.inj hs).symm

theorem unescapeFrom?_append (h : unescapeFrom? spot cs = some ds) (hr : r ≠ []) :
    unescapeFrom? spot (cs ++ r) = none := by
  induction cs generalizing spot ds with
  | nil => cases spot <;> cases h
  | cons c cs ih =>
    rw [List.cons_append]
    cases spot with
    | plain =>
      rw [unescapeFrom?] at h ⊢
      split at h
      · rw [if_pos ‹_›, if_neg (List.append_ne_nil_of_right_ne_nil cs hr)]
      · rw [if_neg ‹_›]
        split at h
        · rw [if_pos ‹_›]
          exact ih h
        · obtain ⟨es, hes, -⟩ := Option.map_eq_some_iff.mp h
          rw [if_neg ‹_›, ih hes, Option.map_none]
    | escape =>
      rw [unescapeFrom?] at h ⊢
      split at h
      · rw [if_pos ‹_›]
        exact ih h
      · obtain ⟨d, hd, h⟩ := Option.bind_eq_some_iff.mp h
        obtain ⟨es, hes, -⟩ := Option.map_eq_some_iff.mp h
        rw [if_neg ‹_›, hd, Option.bind_some, ih hes, Option.map_none]
    | brace =>
      rw [unescapeFrom?] at h ⊢
      split at h
      · rw [if_pos ‹_›]
        exact ih h
      · cases h
    | code n? =>
      rw [unescapeFrom?] at h ⊢
      split at h
      · obtain ⟨n, hn, h⟩ := Option.bind_eq_some_iff.mp h
        rw [if_pos ‹_›, hn, Option.bind_some]
        split at h
        · obtain ⟨es, hes, -⟩ := Option.map_eq_some_iff.mp h
          rw [if_pos ‹_›, ih hes, Option.map_none]
        · cases h
      · obtain ⟨d, hd, h⟩ := Option.bind_eq_some_iff.mp h
        rw [if_neg ‹_›, hd, Option.bind_some]
        exact ih h

theorem unquote?_append (h : unquote? cs = some ds) (hr : r ≠ []) :
    unquote? (cs ++ r) = none := by
  unfold unquote? at h
  split at h
  · exact unescapeFrom?_append h hr
  · cases h

/-- No quote before the last one closes a quoted text. -/
theorem unquote?_of_append (h : quoteChars cs = p ++ r) (hr : r ≠ []) : unquote? p = none := by
  cases hp : unquote? p with
  | none => rfl
  | some ds =>
    have hn := unquote?_append hp hr
    rw [← h, unquote?_quoteChars] at hn
    cases hn

theorem staysInLine_iff : StaysInLine c ↔
    0x20 ≤ c.toNat ∧ (c.toNat < 0x7F ∨ 0xA0 ≤ c.toNat) ∧ c.toNat ≠ 0x2028 ∧
      c.toNat ≠ 0x2029 := by
  simp only [StaysInLine, IsControl, IsSeparator]
  omega

theorem StaysInLine.of_isVisible (h : IsVisible c) : StaysInLine c := by
  have hv := isVisible_iff.mp h
  apply staysInLine_iff.mpr
  omega

theorem not_inRanges (h : inRanges n ranges = false) (hr : (low, high) ∈ ranges) :
    ¬ (low ≤ n ∧ n ≤ high) := by
  have hf := List.any_eq_false.mp h (low, high) hr
  simpa using hf

theorem staysInLine_of_isShown (h : isShown c = true) : StaysInLine c := by
  apply staysInLine_iff.mpr
  unfold isShown at h
  split at h
  · have hl : 0x20 ≤ c.toNat := of_decide_eq_true h
    omega
  · rw [Bool.not_eq_true', Bool.or_eq_false_iff, Bool.or_eq_false_iff] at h
    obtain ⟨⟨hlow, hbasic⟩, -⟩ := h
    have hc := not_inRanges hlow (show (0x7F, 0xA0) ∈ unshownLow by decide)
    have hs := not_inRanges hbasic (show (0x2028, 0x202F) ∈ unshownBasic by decide)
    omega

theorem staysInLine_of_mem_escapeChar (h : x ∈ escapeChar c) : StaysInLine x := by
  have hvisible (cs : List Char) (hcs : cs.all (fun c => decide (IsVisible c)) = true)
      (hx : x ∈ cs) : StaysInLine x :=
    .of_isVisible (forall_mem_of_all hcs x hx)
  unfold escapeChar at h
  split at h
  · exact hvisible _ rfl h
  · exact hvisible _ rfl h
  · exact hvisible _ rfl h
  · exact hvisible _ rfl h
  · exact hvisible _ rfl h
  · exact hvisible _ rfl h
  · split at h
    · next hs =>
      rw [List.mem_singleton.mp h]
      exact staysInLine_of_isShown hs
    · rw [List.mem_append, List.mem_append] at h
      obtain (h | h) | h := h
      · exact hvisible _ rfl h
      · exact .of_isVisible (.of_isAlphanum (isAlphanum_of_mem_toDigits h))
      · exact hvisible _ rfl h

theorem staysInLine_of_mem_quoteChars (h : x ∈ quoteChars cs) : StaysInLine x := by
  have hq : StaysInLine '"' := .of_isVisible (by decide)
  rw [quoteChars, List.mem_cons, List.mem_append, List.mem_flatMap, List.mem_singleton] at h
  obtain rfl | ⟨c, -, h⟩ | rfl := h
  · exact hq
  · exact staysInLine_of_mem_escapeChar h
  · exact hq

end SchemaSnapshot.Text
