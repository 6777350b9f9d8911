import SchemaSnapshot.Proofs.Document
import SchemaSnapshot.Proofs.Json.Place

namespace SchemaSnapshot

namespace Json.Grammar

def Exponent.isNegative (e : Exponent) : Bool :=
  e.sign.any fun c => c.val == '-'

/-- Two numbers differ at most in whether the exponent mark is capital and whether a plus is
left out after it. -/
def Numeral.Respells (n m : Numeral) : Prop :=
  n.isNegative = m.isNegative ∧ n.whole = m.whole ∧ n.fraction = m.fraction ∧
    match n.exponent, m.exponent with
    | none, none => True
    | some e, some f => e.isNegative = f.isNegative ∧ e.digits = f.digits
    | _, _ => False

theorem Exponent.normal_eq_iff {e f : Exponent} :
    e.normal = f.normal ↔ e.isNegative = f.isNegative ∧ e.digits = f.digits := by
  have hsign (c d : Option Sign) : c.getD ⟨'+', .inl rfl⟩ = d.getD ⟨'+', .inl rfl⟩ ↔
      c.any (fun c => c.val == '-') = d.any fun c => c.val == '-' := by
    obtain _ | ⟨c, rfl | rfl⟩ := c <;> obtain _ | ⟨d, rfl | rfl⟩ := d <;> simp
  rw [isNegative, isNegative, ← hsign, normal, normal]
  simp

theorem Numeral.kept_eq_iff {n m : Numeral} :
    keptChars n.chars = keptChars m.chars ↔ n.Respells m := by
  rw [n.kept, m.kept, Numeral.chars_injective.eq_iff]
  obtain ⟨b, w, f, e⟩ := n
  obtain ⟨b', w', f', e'⟩ := m
  cases e <;> cases e' <;> simp [normal, Respells, Exponent.normal_eq_iff]

end Json.Grammar

namespace Document
open Json Grammar

theorem versionLabel_of_compact {d : Document} (h : d.version? = some v)
    (hv : ∀ s, v ≠ .string s) : d.versionLabel = v.compact := by
  rw [versionLabel, h]
  cases v with
  | string s => exact absurd rfl (hv s)
  | _ => rfl

theorem versionLabel_of_number {d : Document}
    (h : d.value.at? (.member "version" :: q) = some (.number s)) :
    ∃ v, d.version? = some v ∧ v.at? q = some (.number s) ∧ d.versionLabel = v.compact := by
  obtain ⟨v, hv, hq⟩ := Option.bind_eq_some_iff.mp h
  rw [Value.child?_member] at hv
  refine ⟨v, hv, hq, versionLabel_of_compact hv ?_⟩
  rintro t rfl
  cases q with
  | nil => cases hq
  | cons b q => cases hq

/-- Each number that is kept is written as it was read, but for the spelling of its exponent. -/
theorem number_texts (h : read b = .ok d) :
    ∃ t pretty compact : Text,
      t.Derives b ∧ pretty.Derives d.written ∧ compact.Derives (octets d.compact) ∧
      (∀ p n, t.node.at? p = some (.number n) →
        d.value.at? p = some (.number (String.ofList (keptChars n.chars))) ∧
        ∃ m : Numeral, m.chars = keptChars n.chars ∧
          pretty.node.at? p = some (.number m) ∧ compact.node.at? p = some (.number m)) ∧
      (∀ n, t.node.at? [.member "version"] = some (.number n) →
        d.versionLabel = String.ofList (keptChars n.chars)) ∧
      (∀ q n, t.node.at? (.member "version" :: q) = some (.number n) →
        ∃ (label : Text) (m : Numeral), label.Derives (octets d.versionLabel) ∧
          m.chars = keptChars n.chars ∧ label.node.at? q = some (.number m)) ∧
      ∀ n m : Numeral, (Node.number n).value = (Node.number m).value ↔ n.Respells m := by
  have hv := read_eq_ok_iff.mp h
  have hr := readable_of_read hv
  obtain ⟨t, ht, _, htv⟩ := exists_derives_of_read hv
  obtain ⟨pretty, hp, hps, hpv⟩ := Value.exists_derives_pretty hr
  obtain ⟨compact, hc, hcs, hcv⟩ := Value.exists_derives_compact hr
  have hat : ∀ p n, t.node.at? p = some (.number n) →
      d.value.at? p = some (.number (String.ofList n.normal.chars)) := by
    intro p n hn
    rw [← htv, t.node.value_at?, hn, ← n.kept]
    rfl
  refine ⟨t, pretty, compact, ht, by rwa [written_eq], hc, ?_, ?_, ?_, ?_⟩
  · intro p n hn
    have hd := hat p n hn
    refine ⟨by rwa [n.kept], n.normal, n.kept.symm, ?_, ?_⟩
    · exact hps.number_at? (hpv ▸ hd)
    · exact hcs.number_at? (hcv ▸ hd)
  · intro n hn
    obtain ⟨v, _, hq, hlabel⟩ := versionLabel_of_number (hat _ n hn)
    obtain rfl := Option.some.inj hq
    rw [hlabel, n.kept, Value.compact, Value.compactChars, String.toList_ofList]
  · intro q n hn
    obtain ⟨v, hver, hq, hlabel⟩ := versionLabel_of_number (hat _ n hn)
    obtain ⟨label, hl, hls, rfl⟩ := Value.exists_derives_compact (hr.member? hver)
    exact ⟨label, n.normal, hlabel ▸ hl, n.kept.symm, hls.number_at? hq⟩
  · intro n m
    rw [← Numeral.kept_eq_iff, Node.value, Node.value, Value.number.injEq,
      String.ofList_inj]

/-- The text is `[1E5]`. -/
theorem number_texts_exponent :
    read [0x5B, 0x31, 0x45, 0x35, 0x5D] = .ok ⟨.array [.number "1e+5"]⟩ ∧
      ∃ (text : Text) (m : Numeral), text.Derives (written ⟨.array [.number "1e+5"]⟩) ∧
        m.chars = ['1', 'e', '+', '5'] ∧ text.node.at? [.item 0] = some (.number m) := by
  have h : read [0x5B, 0x31, 0x45, 0x35, 0x5D] = .ok ⟨.array [.number "1e+5"]⟩ := rfl
  obtain ⟨t, text, _, ht, htext, _, hn, _⟩ := number_texts h
  let n : Numeral := ⟨false, .nonzero ⟨'1', by decide⟩ [], none,
    some ⟨⟨'E', by decide⟩, none, ⟨'5', by decide⟩, []⟩⟩
  obtain rfl := (ht ⟨[], .array [] (.number n) (.close []), []⟩).mp (by decide)
  obtain ⟨_, m, hm, hat, _⟩ := hn [.item 0] n rfl
  exact ⟨h, text, m, htext, hm, hat⟩

end Document

end SchemaSnapshot
