import SchemaSnapshot.Proofs.Except
import SchemaSnapshot.Proofs.Text.Ascii
import SchemaSnapshot.Proofs.Text.Utf8
import SchemaSnapshot.Proofs.Url.Address
import SchemaSnapshot.Url.Parser

namespace SchemaSnapshot.Host

variable {cs name : List Char} {host : Host}

theorem not_forbidden_iff :
    forbidden c = false ↔ IsVisible c ∧
      c ∉ ['%', '#', '/', ':', '<', '>', '?', '@', '[', '\\', ']', '^', '|'] := by
  simp only [forbidden, Bool.or_eq_false_iff, decide_eq_false_iff_not, isVisible_iff]
  have hle : (¬ c.toNat ≤ 0x20 ∧ ¬ 0x7F ≤ c.toNat) ↔ 0x20 < c.toNat ∧ c.toNat ≤ 0x7E := by
    omega
  rw [hle]

theorem not_forbidden_of_isAlphanum (h : c.isAlphanum = true) : forbidden c = false := by
  rw [not_forbidden_iff]
  refine ⟨.of_isAlphanum h, ?_⟩
  intro hc
  simp only [List.mem_cons, List.not_mem_nil, or_false] at hc
  obtain rfl | rfl | rfl | rfl | rfl | rfl | rfl | rfl | rfl | rfl | rfl | rfl | rfl := hc
  all_goals exact absurd h (by decide)

theorem not_forbidden_toLower (h : forbidden c = false) : forbidden c.toLower = false := by
  obtain hl | hl := toLower_cases c
  · rwa [hl]
  · exact not_forbidden_of_isAlphanum (isAlphanum_iff.mpr (.inl (.inr hl)))

theorem toLower_eq_stop : (c.toLower = '.') = (c = '.') := by
  obtain h | h := toLower_cases c
  · rw [h]
  · have hl : c.toLower ≠ '.' := by
      rintro hc
      rw [hc] at h
      exact absurd h (by decide)
    have hc : c ≠ '.' := by
      rintro rfl
      exact hl rfl
    rw [eq_false hl, eq_false hc]

theorem isInternational_toLower (cs : List Char) :
    isInternational (cs.map Char.toLower) = isInternational cs := by
  have hchar (c : Char) : decide (0x80 ≤ c.toLower.toNat) = decide (0x80 ≤ c.toNat) := by
    by_cases h : 65 ≤ c.toNat ∧ c.toNat ≤ 90
    · rw [toNat_toLower h, decide_eq_decide]
      omega
    · rw [toLower_eq_self h]
  have hlabel (l : List Char) :
      ((l.map Char.toLower).take 4).map Char.toLower = (l.take 4).map Char.toLower := by
    rw [← List.map_take, List.map_map]
    exact List.map_congr_left fun c _ => toLower_toLower c
  unfold isInternational
  rw [Text.split_map fun c => by simp [toLower_eq_stop]]
  simp only [List.any_map, Function.comp_def, hchar, hlabel]

/-- No label stands for something beyond ASCII without the letter that the mark of such labels
begins with. -/
theorem not_isInternational (h : ∀ c ∈ name, c.toNat < 0x80 ∧ c.toLower ≠ 'x') :
    isInternational name = false := by
  rw [isInternational, Bool.or_eq_false_iff]
  constructor
  · simpa using fun c hc => (h c hc).1
  · rw [List.any_eq_false]
    intro l hl hx
    rw [decide_eq_true_eq] at hx
    cases l with
    | nil => cases hx
    | cons c l =>
      exact (h c (Text.mem_of_mem_split hl c List.mem_cons_self)).2 (List.cons.inj hx).1

/-- A host as it is known once it is read. -/
def Settled : Host → Prop
  | .empty => False
  | .domain name =>
    name ≠ [] ∧ (∀ c ∈ name, forbidden c = false ∧ c.toLower = c) ∧ Ipv4.isMeant name = false ∧
      isInternational name = false
  | .ipv4 _ => True
  | .ipv6 _ => True

theorem settled_of_bracketed (h : bracketed cs = .ok host) : host.Settled := by
  unfold bracketed at h
  split at h
  · split at h
    · cases h
      trivial
    · cases h
  · cases h

theorem settled_of_ofName (h : ofName cs = .ok host) : host.Settled := by
  unfold ofName at h
  split at h
  · cases h
  next hi =>
  split at h
  · cases h
  next hf =>
  dsimp only at h
  split at h
  · split at h
    · cases h
      trivial
    · cases h
  next hm =>
  split at h
  · cases h
  next hn =>
  cases h
  refine ⟨hn, ?_, by simpa using hm, by simpa [isInternational_toLower] using hi⟩
  intro c hc
  obtain ⟨d, hd, rfl⟩ := List.mem_map.mp hc
  exact ⟨not_forbidden_toLower (by simpa using List.any_eq_false.mp (by simpa using hf) d hd),
    toLower_toLower d⟩

theorem settled_of_ofSpecial (h : ofSpecial cs = .ok host) : host.Settled := by
  unfold ofSpecial at h
  split at h
  · exact settled_of_bracketed h
  · exact settled_of_ofName h

theorem decode_cons (h : c ≠ '%') (cs : List Char) :
    Percent.decode (c :: cs) = String.utf8EncodeChar c ++ Percent.decode cs := by
  rw [Percent.decode]
  intro a b r hc
  exact absurd hc h

/-- A text of ASCII without percent signs means itself. -/
theorem decode_eq (h : ∀ c ∈ cs, c.toNat < 0x80 ∧ c ≠ '%') :
    (Percent.decode cs).map (fun b => Char.ofNat b.toNat) = cs := by
  induction cs with
  | nil => rfl
  | cons c cs ih =>
    obtain ⟨⟨hl, hp⟩, ht⟩ := List.forall_mem_cons.mp h
    rw [decode_cons hp, Utf8.encodeChar_ascii hl, List.map_append, ih ht]
    have hc : (UInt8.ofNat c.toNat).toNat = c.toNat := Utf8.toNat_ofNat_of_lt (by omega)
    simp [hc]

section

variable (h : ∀ c ∈ name, forbidden c = false ∧ c.toLower = c)
include h

theorem taken_as_written : ¬ name.any forbidden = true ∧ name.map Char.toLower = name := by
  constructor
  · simpa using fun c hc => (h c hc).1
  · rw [List.map_congr_left fun c hc => (h c hc).2, List.map_id']

theorem ofName_domain (hn : name ≠ []) (hm : Ipv4.isMeant name = false)
    (hi : isInternational name = false) : ofName name = .ok (.domain name) := by
  obtain ⟨hf, hl⟩ := taken_as_written h
  rw [ofName, hi, if_neg Bool.false_ne_true, if_neg hf]
  dsimp only
  rw [hl, hm, if_neg Bool.false_ne_true, if_neg hn]

theorem ofName_ipv4 (hm : Ipv4.isMeant name = true) (ha : Ipv4.ofName? name = some a)
    (hi : isInternational name = false) : ofName name = .ok (.ipv4 a) := by
  obtain ⟨hf, hl⟩ := taken_as_written h
  rw [ofName, hi, if_neg Bool.false_ne_true, if_neg hf]
  dsimp only
  rw [hl, if_pos hm, ha]

theorem ofSpecial_name : ofSpecial name = ofName name := by
  have hd : (Percent.decode name).map (fun b => Char.ofNat b.toNat) = name := by
    refine decode_eq fun c hc => ?_
    obtain ⟨hv, hm⟩ := not_forbidden_iff.mp (h c hc).1
    rw [isVisible_iff] at hv
    exact ⟨by omega, fun hp => hm (by simp [hp])⟩
  have hb : ∀ r, name ≠ '[' :: r := by
    rintro r rfl
    obtain ⟨hf, -⟩ := h '[' List.mem_cons_self
    exact absurd hf (by decide)
  unfold ofSpecial
  split
  · next r => exact absurd rfl (hb r)
  · rw [hd]

end

theorem forall_mem_ipv4 (a : Ipv4) : ∀ c ∈ a.chars, forbidden c = false ∧ c.toLower = c := by
  intro c hc
  obtain rfl | hd := a.forall_mem_chars c hc
  · decide
  · have hd' : 48 ≤ c.toNat ∧ c.toNat ≤ 57 := by
      rw [Char.isDigit, Bool.and_eq_true, decide_eq_true_eq, decide_eq_true_eq] at hd
      exact ⟨UInt32.le_iff_toNat_le.mp hd.1, UInt32.le_iff_toNat_le.mp hd.2⟩
    exact ⟨not_forbidden_of_isAlphanum (isAlphanum_iff.mpr (.inr hd')),
      toLower_eq_self (by omega)⟩

theorem not_isInternational_ipv4 (a : Ipv4) : isInternational a.chars = false := by
  apply not_isInternational
  intro c hc
  obtain rfl | hd := a.forall_mem_chars c hc
  · decide
  · rw [Char.isDigit, Bool.and_eq_true, decide_eq_true_eq, decide_eq_true_eq] at hd
    have hd' : c.toNat ≤ 57 := UInt32.le_iff_toNat_le.mp hd.2
    refine ⟨by omega, ?_⟩
    rw [toLower_eq_self (by omega)]
    rintro rfl
    exact absurd hd' (by decide)

theorem Settled.ofSpecial_chars (h : host.Settled) : ofSpecial host.chars = .ok host := by
  cases host with
  | empty => exact absurd h id
  | domain name =>
    obtain ⟨hn, hc, hm, hi⟩ := h
    rw [chars, ofSpecial_name hc, ofName_domain hc hn hm hi]
  | ipv4 a =>
    have hc := forall_mem_ipv4 a
    rw [chars, ofSpecial_name hc, ofName_ipv4 hc a.isMeant_chars a.ofName?_chars
      (not_isInternational_ipv4 a)]
  | ipv6 a =>
    show bracketed (a.chars ++ [']']) = _
    rw [bracketed, List.getLast?_concat, List.dropLast_concat, a.ofChars?_chars]
    rfl

theorem not_mark_of_not_forbidden (h : forbidden c = false) :
    IsVisible c ∧ c ∉ ['/', '\\', '?', '#', '@'] := by
  obtain ⟨hv, hm⟩ := not_forbidden_iff.mp h
  exact ⟨hv, by simp_all⟩

/-- What is written of a host is seen, and nothing there ends it or begins something else. -/
theorem Settled.forall_mem (h : host.Settled) :
    ∀ c ∈ host.chars, IsVisible c ∧ c ∉ ['/', '\\', '?', '#', '@'] := by
  cases host with
  | empty => exact absurd h id
  | domain name => exact fun c hc => not_mark_of_not_forbidden (h.2.1 c hc).1
  | ipv4 a => exact fun c hc => not_mark_of_not_forbidden (forall_mem_ipv4 a c hc).1
  | ipv6 a =>
    rw [chars, List.forall_mem_cons, List.forall_mem_append]
    refine ⟨by decide, ?_, List.forall_mem_singleton.mpr (by decide)⟩
    intro c hc
    obtain rfl | ha := a.forall_mem_chars c hc
    · decide
    · exact not_mark_of_not_forbidden (not_forbidden_of_isAlphanum ha)

theorem Settled.chars_ne_nil (h : host.Settled) : host.chars ≠ [] := by
  intro hn
  have hr := h.ofSpecial_chars
  have he : ofSpecial [] = .error .emptyHost := rfl
  rw [hn, he] at hr
  cases hr

end SchemaSnapshot.Host

namespace SchemaSnapshot.Url

variable {cs r : List Char} {host : Host}

theorem splitHost_append {inBrackets : Bool}
    (h : ∀ c ∈ cs, c ≠ '[' ∧ c ≠ ']' ∧ (inBrackets = false → c ≠ ':')) (r : List Char) :
    splitHost inBrackets (cs ++ r) =
      (cs ++ (splitHost inBrackets r).1, (splitHost inBrackets r).2) := by
  induction cs with
  | nil => rfl
  | cons c cs ih =>
    obtain ⟨⟨hl, hr, hc⟩, ht⟩ := List.forall_mem_cons.mp h
    have hn : ¬ (c = ':' ∧ (!inBrackets) = true) := by
      rintro ⟨rfl, hb⟩
      exact hc (by simpa using hb) rfl
    rw [List.cons_append, splitHost, if_neg hn, if_neg hl, if_neg hr, ih ht]
    rfl

/-- A host ends where it is written to its end, if nothing or a port follows. -/
theorem splitHost_chars (h : host.Settled) (hr : r = [] ∨ ∃ t, r = ':' :: t) :
    splitHost false (host.chars ++ r) = (host.chars, r) := by
  have hend : splitHost false r = ([], r) := by
    obtain rfl | ⟨t, rfl⟩ := hr
    · rfl
    · rw [splitHost, if_pos ⟨rfl, rfl⟩]
  have hname (name : List Char) (hf : ∀ c ∈ name, Host.forbidden c = false) :
      splitHost false (name ++ r) = (name, r) := by
    rw [splitHost_append (fun c hc => ?_), hend, List.append_nil]
    obtain ⟨-, hm⟩ := Host.not_forbidden_iff.mp (hf c hc)
    simp_all
  cases host with
  | empty => exact absurd h id
  | domain name => exact hname name fun c hc => (h.2.1 c hc).1
  | ipv4 a => exact hname a.chars fun c hc => (Host.forall_mem_ipv4 a c hc).1
  | ipv6 a =>
    have hin : ∀ c ∈ a.chars, c ≠ '[' ∧ c ≠ ']' ∧ (true = false → c ≠ ':') := by
      intro c hc
      obtain rfl | ha := a.forall_mem_chars c hc
      · decide
      · obtain ⟨-, hm⟩ := Host.not_forbidden_iff.mp (Host.not_forbidden_of_isAlphanum ha)
        simp_all
    have hopen : splitHost false ('[' :: (a.chars ++ (']' :: r))) =
        ('[' :: (splitHost true (a.chars ++ (']' :: r))).1,
          (splitHost true (a.chars ++ (']' :: r))).2) := rfl
    have hclose : splitHost true (']' :: r) =
        (']' :: (splitHost false r).1, (splitHost false r).2) := rfl
    rw [Host.chars, List.cons_append, List.append_assoc, List.singleton_append, hopen,
      splitHost_append hin, hclose, hend]

end SchemaSnapshot.Url
