import SchemaSnapshot.Proofs.Except
import SchemaSnapshot.Proofs.Json.Acceptance
import SchemaSnapshot.Proofs.Text.Utf8

namespace SchemaSnapshot.Json.State

inductive Begins (frames : List Frame) : UInt8 → State → Prop
  | text : Begins frames 0x22 ⟨frames, .text .opened⟩
  | array (h : frames.length < maxDepth) : Begins frames 0x5B ⟨frames, .firstItem⟩
  | object (h : frames.length < maxDepth) : Begins frames 0x7B ⟨frames, .firstKey⟩
  | nullWord : Begins frames 0x6E ⟨frames, .literal (octets "ull") .null⟩
  | trueWord : Begins frames 0x74 ⟨frames, .literal (octets "rue") (.bool true)⟩
  | falseWord : Begins frames 0x66 ⟨frames, .literal (octets "alse") (.bool false)⟩
  | number (h : NumberScan.start? b = some n) : Begins frames b ⟨frames, .number n⟩

inductive Follows : List Frame → Value → UInt8 → State → Prop
  | blank (h : isBlank b = true) : Follows frames u b ⟨frames, .after u⟩
  | nextItem : Follows (.array items :: frames) u 0x2C ⟨frames, .item (u :: items)⟩
  | closeArray :
      Follows (.array items :: frames) u 0x5D ⟨frames, .after (.array (u :: items).reverse)⟩
  | nextMember :
      Follows (.member ms key :: frames) u 0x2C ⟨frames, .key (ms.insert key u)⟩
  | closeObject :
      Follows (.member ms key :: frames) u 0x7D ⟨frames, .after (.object (ms.insert key u))⟩

/-- The octet leads from one state to the other. -/
inductive Steps : State → UInt8 → State → Prop
  | blank (hs : s.phase.skipsBlanks = true) (hb : isBlank b = true) : Steps s b s
  | value (h : Begins frames b t) : Steps ⟨frames, .value⟩ b t
  | firstItem (h : Begins (.array [] :: frames) b t) : Steps ⟨frames, .firstItem⟩ b t
  | item (h : Begins (.array items :: frames) b t) : Steps ⟨frames, .item items⟩ b t
  | emptyArray : Steps ⟨frames, .firstItem⟩ 0x5D ⟨frames, .after (.array [])⟩
  | firstKey : Steps ⟨frames, .firstKey⟩ 0x22 ⟨frames, .keyText [] true .opened⟩
  | key : Steps ⟨frames, .key ms⟩ 0x22 ⟨frames, .keyText ms false .opened⟩
  | emptyObject : Steps ⟨frames, .firstKey⟩ 0x7D ⟨frames, .after (.object [])⟩
  | keyText (h : scan.step b = .more scan') :
      Steps ⟨frames, .keyText ms isFirst scan⟩ b ⟨frames, .keyText ms isFirst scan'⟩
  | closeKey (h : scan.step b = .closed ct) (hd : StringScan.decode ct = .ok key) :
      Steps ⟨frames, .keyText ms isFirst scan⟩ b (keyed frames ms isFirst key)
  | colon : Steps ⟨frames, .colon ms key⟩ 0x3A ⟨.member ms key :: frames, .value⟩
  | literal (h : rest ≠ []) : Steps ⟨frames, .literal (b :: rest) u⟩ b ⟨frames, .literal rest u⟩
  | closeLiteral : Steps ⟨frames, .literal [b] u⟩ b ⟨frames, .after u⟩
  | afterLiteral (h : Follows frames u b t) : Steps ⟨frames, .literal [] u⟩ b t
  | number (h : scan.step b = .more scan') : Steps ⟨frames, .number scan⟩ b
      ⟨frames, .number scan'⟩
  | afterNumber (h : scan.step b = .ended) (ht : Follows frames (.number scan.text) b t) :
      Steps ⟨frames, .number scan⟩ b t
  | text (h : scan.step b = .more scan') : Steps ⟨frames, .text scan⟩ b ⟨frames, .text scan'⟩
  | closeText (h : scan.step b = .closed ct) (hd : StringScan.decode ct = .ok text) :
      Steps ⟨frames, .text scan⟩ b ⟨frames, .after (.string text)⟩
  | after (h : Follows frames u b t) : Steps ⟨frames, .after u⟩ b t
  | sealedColon : Steps ⟨frames, .sealedColon⟩ 0x3A ⟨frames, .sealedValue⟩
  | sealedValue : Steps ⟨frames, .sealedValue⟩ 0x22 ⟨frames, .sealedText .opened⟩
  | misplacedNull :
      Steps ⟨frames, .sealedValue⟩ 0x6E ⟨frames, .sealedLiteral (octets "ull") .null⟩
  | misplacedTrue :
      Steps ⟨frames, .sealedValue⟩ 0x74 ⟨frames, .sealedLiteral (octets "rue") (.bool true)⟩
  | misplacedFalse :
      Steps ⟨frames, .sealedValue⟩ 0x66 ⟨frames, .sealedLiteral (octets "alse") (.bool false)⟩
  | misplacedNumber (h : NumberScan.start? b = some n) :
      Steps ⟨frames, .sealedValue⟩ b ⟨frames, .sealedNumber n⟩
  | sealedText (h : scan.step b = .more scan') :
      Steps ⟨frames, .sealedText scan⟩ b ⟨frames, .sealedText scan'⟩
  | closeSealedText (h : scan.step b = .closed ct) (hd : StringScan.decode ct = .ok text)
      (hn : numberOfText text = .ok number) :
      Steps ⟨frames, .sealedText scan⟩ b ⟨frames, .sealedEnd number⟩
  | sealedEnd : Steps ⟨frames, .sealedEnd text⟩ 0x7D ⟨frames, .after (.number text)⟩
  | sealedLiteral (h : rest ≠ []) :
      Steps ⟨frames, .sealedLiteral (b :: rest) found⟩ b ⟨frames, .sealedLiteral rest found⟩
  | sealedNumber (h : scan.step b = .more scan') :
      Steps ⟨frames, .sealedNumber scan⟩ b ⟨frames, .sealedNumber scan'⟩

variable {frames : List Frame} {s t : State} {u : Value}

theorem begins_of_begin (h : begin frames b = .ok t) : Begins frames b t := by
  unfold begin at h
  split at h
  · next hc =>
    obtain rfl := Except.ok.inj h
    obtain rfl := Utf8.eq_ofNat_of_ofUInt8 hc
    exact .text
  · next hc =>
    obtain rfl := Utf8.eq_ofNat_of_ofUInt8 hc
    split at h
    · next hl =>
      obtain rfl := Except.ok.inj h
      exact .array hl
    · cases h
  · next hc =>
    obtain rfl := Utf8.eq_ofNat_of_ofUInt8 hc
    split at h
    · next hl =>
      obtain rfl := Except.ok.inj h
      exact .object hl
    · cases h
  · next hc =>
    obtain rfl := Except.ok.inj h
    obtain rfl := Utf8.eq_ofNat_of_ofUInt8 hc
    exact .nullWord
  · next hc =>
    obtain rfl := Except.ok.inj h
    obtain rfl := Utf8.eq_ofNat_of_ofUInt8 hc
    exact .trueWord
  · next hc =>
    obtain rfl := Except.ok.inj h
    obtain rfl := Utf8.eq_ofNat_of_ofUInt8 hc
    exact .falseWord
  · split at h
    · next hn =>
      obtain rfl := Except.ok.inj h
      exact .number hn
    · cases h

theorem follows_of_follow (h : follow frames u b = .ok t) : Follows frames u b t := by
  unfold follow at h
  split at h
  · next hb =>
    obtain rfl := Except.ok.inj h
    exact .blank hb
  · split at h
    · cases h
    · split at h
      · next hc =>
        obtain rfl := Except.ok.inj h
        obtain rfl := Utf8.eq_ofNat_of_ofUInt8 hc
        exact .nextItem
      · next hc =>
        obtain rfl := Except.ok.inj h
        obtain rfl := Utf8.eq_ofNat_of_ofUInt8 hc
        exact .closeArray
      · cases h
    · split at h
      · next hc =>
        obtain rfl := Except.ok.inj h
        obtain rfl := Utf8.eq_ofNat_of_ofUInt8 hc
        exact .nextMember
      · next hc =>
        obtain rfl := Except.ok.inj h
        obtain rfl := Utf8.eq_ofNat_of_ofUInt8 hc
        exact .closeObject
      · cases h

theorem steps_of_beginSealed (h : beginSealed frames b = .ok t) :
    Steps ⟨frames, .sealedValue⟩ b t := by
  unfold beginSealed at h
  split at h
  · next hc =>
    obtain rfl := Except.ok.inj h
    obtain rfl := Utf8.eq_ofNat_of_ofUInt8 hc
    exact .sealedValue
  · next hc =>
    obtain rfl := Except.ok.inj h
    obtain rfl := Utf8.eq_ofNat_of_ofUInt8 hc
    exact .misplacedNull
  · next hc =>
    obtain rfl := Except.ok.inj h
    obtain rfl := Utf8.eq_ofNat_of_ofUInt8 hc
    exact .misplacedTrue
  · next hc =>
    obtain rfl := Except.ok.inj h
    obtain rfl := Utf8.eq_ofNat_of_ofUInt8 hc
    exact .misplacedFalse
  · cases h
  · cases h
  · split at h
    · next hn =>
      obtain rfl := Except.ok.inj h
      exact .misplacedNumber hn
    · cases h

/-- Between the tokens of a text, where blanks are skipped. -/
theorem steps_between (hs : s.phase.skipsBlanks = true) (hb : ¬ isBlank b = true)
    (h : s.step b = .ok t) : s.Steps b t := by
  obtain ⟨frames, phase⟩ := s
  cases phase with
  | value =>
    simp only [step, if_neg hb] at h
    exact .value (begins_of_begin h)
  | firstItem =>
    simp only [step, if_neg hb] at h
    split at h
    · next hc =>
      obtain rfl := Except.ok.inj h
      exact hc ▸ .emptyArray
    · exact .firstItem (begins_of_begin h)
  | item items =>
    simp only [step, if_neg hb] at h
    split at h
    · cases h
    · exact .item (begins_of_begin h)
  | firstKey =>
    simp only [step, if_neg hb] at h
    split at h
    · next hc =>
      obtain rfl := Except.ok.inj h
      exact hc ▸ .firstKey
    · split at h
      · next hc =>
        obtain rfl := Except.ok.inj h
        exact hc ▸ .emptyObject
      · cases h
  | key ms =>
    simp only [step, if_neg hb] at h
    split at h
    · next hc =>
      obtain rfl := Except.ok.inj h
      exact hc ▸ .key
    · split at h
      · cases h
      · cases h
  | colon ms key =>
    simp only [step, if_neg hb] at h
    split at h
    · next hc =>
      obtain rfl := Except.ok.inj h
      exact hc ▸ .colon
    · cases h
  | after u => exact .after (follows_of_follow h)
  | sealedColon =>
    simp only [step, if_neg hb] at h
    split at h
    · next hc =>
      obtain rfl := Except.ok.inj h
      exact hc ▸ .sealedColon
    · cases h
  | sealedValue =>
    simp only [step, if_neg hb] at h
    exact steps_of_beginSealed h
  | sealedEnd text =>
    simp only [step, if_neg hb] at h
    split at h
    · next hc =>
      obtain rfl := Except.ok.inj h
      exact hc ▸ .sealedEnd
    · split at h
      · cases h
      · cases h
  | _ => cases hs

/-- Inside a token, where each octet counts. -/
theorem steps_inside (hs : s.phase.skipsBlanks = false) (h : s.step b = .ok t) :
    s.Steps b t := by
  obtain ⟨frames, phase⟩ := s
  cases phase with
  | keyText ms isFirst scan =>
    simp only [step] at h
    split at h
    · next hb =>
      obtain rfl := Except.ok.inj h
      exact .keyText hb
    · next hb =>
      obtain ⟨key, hd, rfl⟩ := map_eq_ok h
      exact .closeKey hb hd
    · cases h
  | literal rest u =>
    simp only [step] at h
    split at h
    · exact .afterLiteral (follows_of_follow h)
    · split at h
      · next hc =>
        obtain rfl := Except.ok.inj h
        subst hc
        split
        · next hr => exact hr ▸ .closeLiteral
        · next hr => exact .literal hr
      · cases h
  | number scan =>
    simp only [step] at h
    split at h
    · next hb =>
      obtain rfl := Except.ok.inj h
      exact .number hb
    · next hb => exact .afterNumber hb (follows_of_follow h)
    · cases h
  | text scan =>
    simp only [step] at h
    split at h
    · next hb =>
      obtain rfl := Except.ok.inj h
      exact .text hb
    · next hb =>
      obtain ⟨text, hd, rfl⟩ := map_eq_ok h
      exact .closeText hb hd
    · cases h
  | sealedText scan =>
    simp only [step] at h
    split at h
    · next hb =>
      obtain rfl := Except.ok.inj h
      exact .sealedText hb
    · next hb =>
      obtain ⟨text, hd, h⟩ := bind_eq_ok h
      obtain ⟨number, hn, h⟩ := bind_eq_ok h
      obtain rfl := Except.ok.inj h
      exact .closeSealedText hb hd hn
    · cases h
  | sealedLiteral rest found =>
    simp only [step] at h
    split at h
    · cases h
    · split at h
      · next hc =>
        subst hc
        split at h
        · cases h
        · next hr =>
          obtain rfl := Except.ok.inj h
          exact .sealedLiteral hr
      · cases h
  | sealedNumber scan =>
    simp only [step] at h
    split at h
    · next hb =>
      obtain rfl := Except.ok.inj h
      exact .sealedNumber hb
    · cases h
    · cases h
  | _ => cases hs

/-- A step that is taken is one of the rules. -/
theorem steps_of_step (h : s.step b = .ok t) : s.Steps b t := by
  cases hs : s.phase.skipsBlanks with
  | false => exact steps_inside hs h
  | true =>
    by_cases hb : isBlank b = true
    · obtain rfl := Except.ok.inj ((step_blank hs hb).symm.trans h)
      exact .blank hs hb
    · exact steps_between hs hb h

end SchemaSnapshot.Json.State
