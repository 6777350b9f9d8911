import SchemaSnapshot.Proofs.Json.Literal
import SchemaSnapshot.Proofs.Json.Number
import SchemaSnapshot.Proofs.Json.Steps

namespace SchemaSnapshot.Json
open Grammar

theorem isBlank_blank (c : Blank) :
    ∃ b, String.utf8EncodeChar c.val = [b] ∧ isBlank b = true := by
  obtain ⟨c, rfl | rfl | rfl | rfl⟩ := c
  · exact ⟨0x20, rfl, rfl⟩
  · exact ⟨0x09, rfl, rfl⟩
  · exact ⟨0x0A, rfl, rfl⟩
  · exact ⟨0x0D, rfl, rfl⟩

theorem accepts_blanks {s : State} (hs : s.phase.skipsBlanks = true) (before : List Blank)
    (h : s.Accepts bs v) : s.Accepts (Utf8.encode before.unattach ++ bs) v := by
  induction before with
  | nil => exact h
  | cons c before ih =>
    obtain ⟨b, hc, hb⟩ := isBlank_blank c
    rw [List.unattach_cons, Utf8.encode_cons, hc]
    exact ⟨s, step_blank hs hb, ih⟩

theorem accepts_foldlM {f : σ → State}
    (hf : ∀ scan b scan', next? scan b = some scan' → (f scan).step b = .ok (f scan'))
    (h : List.foldlM next? scan ds = some scan') (hs : (f scan').Accepts bs v) :
    (f scan).Accepts (ds ++ bs) v := by
  induction ds generalizing scan with
  | nil =>
    obtain rfl := Option.some.inj h
    exact hs
  | cons b ds ih =>
    rw [List.foldlM_cons] at h
    obtain ⟨s, hb, h⟩ := Option.bind_eq_some_iff.mp h
    exact ⟨f s, hf scan b s hb, ih h⟩

/-- A literal is read through its opening quote to what its closing quote leads to. -/
theorem accepts_literal {f : StringScan → State}
    (hf : ∀ scan b scan', scan.step b = .more scan' → (f scan).step b = .ok (f scan'))
    (hc : ∀ scan b, scan.step b = .closed (Utf8.encode (Literal.contentChars l)) →
      (f scan).step b = .ok t)
    (hl : Literal.Paired l) (h : t.Accepts bs v) :
    (f .opened).Accepts (Utf8.encode (Literal.body l) ++ 0x22 :: bs) v := by
  obtain ⟨s, hs, hclosed⟩ := StringScan.feed_body hl
  have hscan : ∀ scan b scan', StringScan.next? scan b = some scan' →
      (f scan).step b = .ok (f scan') := by
    intro scan b scan' hb
    exact hf scan b scan' (StringScan.next?_eq_some_iff.mp hb)
  have hquote : (f s).Accepts (0x22 :: bs) v := ⟨t, hc s 0x22 hclosed, h⟩
  exact accepts_foldlM hscan hs hquote

theorem mem_of_follow (h : State.follow stack u b = .ok t) :
    b ∈ [0x20, 0x0A, 0x09, 0x0D, 0x2C, 0x5D, 0x7D] := by
  cases State.follows_of_follow h with
  | blank hb =>
    simp only [isBlank, Bool.or_eq_true, decide_eq_true_eq] at hb
    obtain ((rfl | rfl) | rfl) | rfl := hb
    · decide
    · decide
    · decide
    · decide
  | _ => decide

theorem NumberScan.step_eq_ended {n : NumberScan} (hc : n.part.complete = true)
    (hb : b ∈ [0x20, 0x0A, 0x09, 0x0D, 0x2C, 0x5D, 0x7D]) : n.step b = .ended := by
  have hb' : isDigit b = false ∧ b ≠ 0x2E ∧ ¬ (b = 0x65 ∨ b = 0x45) := by
    simp only [List.mem_cons, List.not_mem_nil, or_false] at hb
    rcases hb with rfl | rfl | rfl | rfl | rfl | rfl | rfl <;> decide
  obtain ⟨hd, hp, hm⟩ := hb'
  obtain ⟨part, kept⟩ := n
  cases part with
  | zero => simp [NumberScan.step, pointOrEnd, markOrEnd, hd, hp, hm]
  | whole => simp [NumberScan.step, pointOrEnd, markOrEnd, hd, hp, hm]
  | fraction => simp [NumberScan.step, markOrEnd, hd, hm]
  | exponent => simp [NumberScan.step, hd]
  | minus => cases hc
  | point => cases hc
  | mark => cases hc
  | sign => cases hc

theorem accepts_number {scan : NumberScan} (hc : scan.part.complete = true)
    (h : State.Accepts ⟨stack, .after (.number scan.text)⟩ bs v) :
    State.Accepts ⟨stack, .number scan⟩ bs v := by
  cases bs with
  | nil =>
    rw [State.Accepts, State.finish]
    simp only [hc, if_true]
    exact h
  | cons b bs =>
    obtain ⟨t, ht, h⟩ := h
    refine ⟨t, ?_, h⟩
    simp only [State.step, NumberScan.step_eq_ended hc (mem_of_follow ht)]
    exact ht

theorem accepts_word (h : State.Accepts ⟨stack, .after u⟩ bs v) (b : UInt8)
    (rest : List UInt8) : State.Accepts ⟨stack, .literal (b :: rest) u⟩
      (b :: rest ++ bs) v := by
  induction rest generalizing b with
  | nil => exact ⟨⟨stack, .after u⟩, by simp [State.step], h⟩
  | cons c rest ih => exact ⟨⟨stack, .literal (c :: rest) u⟩, by simp [State.step], ih c⟩

/-- The text begins with a value inside these containers, without blanks before it. -/
def Begins (stack : List Frame) (bs : List UInt8) (v : Value) : Prop :=
  ∃ b r t, bs = b :: r ∧ isBlank b = false ∧ b ≠ 0x5D ∧ State.begin stack b = .ok t ∧
    t.Accepts r v

theorem begin_of_start? (stack : List Frame) (h : NumberScan.start? b = some n) :
    isBlank b = false ∧ b ≠ 0x5D ∧ State.begin stack b = .ok ⟨stack, .number n⟩ := by
  have hb : b = 0x2D ∨ isDigit b = true := by
    rw [NumberScan.start?] at h
    split at h
    · next hb => exact .inl hb
    · split at h
      · next hb =>
        subst hb
        exact .inr rfl
      · split at h
        · next hd => exact .inr hd
        · cases h
  have hne : ∀ c : UInt8, isDigit c = false → c ≠ 0x2D → b ≠ c := by
    rintro c hd hc rfl
    obtain hb | hb := hb
    · exact hc hb
    · exact absurd hb (by simp [hd])
  refine ⟨?_, hne 0x5D rfl (by decide), ?_⟩
  · simp [isBlank, hne 0x20 rfl (by decide), hne 0x0A rfl (by decide), hne 0x09 rfl (by decide),
      hne 0x0D rfl (by decide)]
  · unfold State.begin
    split
    · next hb => exact absurd (Utf8.eq_ofNat_of_ofUInt8 hb) (hne 0x22 rfl (by decide))
    · next hb => exact absurd (Utf8.eq_ofNat_of_ofUInt8 hb) (hne 0x5B rfl (by decide))
    · next hb => exact absurd (Utf8.eq_ofNat_of_ofUInt8 hb) (hne 0x7B rfl (by decide))
    · next hb => exact absurd (Utf8.eq_ofNat_of_ofUInt8 hb) (hne 0x6E rfl (by decide))
    · next hb => exact absurd (Utf8.eq_ofNat_of_ofUInt8 hb) (hne 0x74 rfl (by decide))
    · next hb => exact absurd (Utf8.eq_ofNat_of_ofUInt8 hb) (hne 0x66 rfl (by decide))
    · rw [h]

theorem Begins.value (h : Begins stack bs v) : State.Accepts ⟨stack, .value⟩ bs v := by
  obtain ⟨b, r, t, rfl, hb, _, ht, h⟩ := h
  refine ⟨t, ?_, h⟩
  simp only [State.step, hb]
  exact ht

theorem Begins.firstItem (h : Begins (.array [] :: stack) bs v) :
    State.Accepts ⟨stack, .firstItem⟩ bs v := by
  obtain ⟨b, r, t, rfl, hb, hne, ht, h⟩ := h
  refine ⟨t, ?_, h⟩
  simp only [State.step, hb, hne]
  exact ht

theorem Begins.item (h : Begins (.array items :: stack) bs v) :
    State.Accepts ⟨stack, .item items⟩ bs v := by
  obtain ⟨b, r, t, rfl, hb, hne, ht, h⟩ := h
  refine ⟨t, ?_, h⟩
  simp only [State.step, hb, hne]
  exact ht

theorem begins_number (n : Numeral)
    (h : State.Accepts ⟨stack, .after (Node.number n).value⟩ r v) :
    Begins stack (Utf8.encode n.chars ++ r) v := by
  obtain ⟨p, hp, b, bs, s, m, hb, hs, hf, rfl⟩ := NumberScan.starts_numeral n
  obtain ⟨k, hk, ht⟩ := NumberScan.exists_numeral hs hf hp
  obtain ⟨hblank, hne, hbegin⟩ := begin_of_start? stack hs
  have hkn : k.chars = n.chars := Utf8.encode_injective (hk.symm.trans hb.symm)
  rw [hkn] at ht
  refine ⟨b, bs ++ r, _, by rw [hb]; rfl, hblank, hne, hbegin, ?_⟩
  have hscan : ∀ scan b scan', NumberScan.next? scan b = some scan' →
      State.step ⟨stack, .number scan⟩ b = .ok ⟨stack, .number scan'⟩ := by
    intro scan b scan' hb
    simp only [State.step, NumberScan.next?_eq_some_iff.mp hb]
  apply accepts_foldlM (f := fun scan => ⟨stack, .number scan⟩) hscan hf
  apply accepts_number hp
  rw [ht]
  exact h

theorem begins_string (hl : Literal.Paired l)
    (h : State.Accepts ⟨stack, .after (.string l.content)⟩ r v) :
    Begins stack (Utf8.encode (Literal.chars l) ++ r) v := by
  refine ⟨0x22, Utf8.encode l.body ++ 0x22 :: r, _, ?_, rfl, by decide, rfl, ?_⟩
  · rw [Literal.chars, Utf8.encode_cons, Utf8.encode_append, List.append_assoc,
      List.append_assoc]
    rfl
  · refine accepts_literal (f := fun scan => ⟨stack, .text scan⟩) ?_ ?_ hl h
    · intro scan b scan' hs
      simp only [State.step, hs]
    · intro scan b hs
      simp only [State.step, hs, StringScan.decode_content]
      rfl

theorem accepts_key (hl : Literal.Paired l)
    (h : (State.keyed stack ms isFirst l.content).Accepts r v) :
    State.Accepts ⟨stack, .keyText ms isFirst .opened⟩
      (Utf8.encode (Literal.body l) ++ 0x22 :: r) v := by
  refine accepts_literal (f := fun scan => ⟨stack, .keyText ms isFirst scan⟩) ?_ ?_ hl h
  · intro scan b scan' hs
    simp only [State.step, hs]
  · intro scan b hs
    simp only [State.step, hs, StringScan.decode_content]
    rfl

theorem accepts_colon (before after : List Blank)
    (h : State.Accepts ⟨.member ms key :: stack, .value⟩ r v) :
    State.Accepts ⟨stack, .colon ms key⟩
      (Utf8.encode before.unattach ++ 0x3A :: (Utf8.encode after.unattach ++ r)) v := by
  apply accepts_blanks rfl before
  refine ⟨⟨.member ms key :: stack, .value⟩, rfl, ?_⟩
  exact accepts_blanks rfl after h

theorem lt_of_depth (h : d + 1 ≤ roomIn stack) : stack.length < maxDepth := by
  simp only [roomIn] at h
  omega

theorem begin_bracket (h : stack.length < maxDepth) :
    State.begin stack 0x5B = .ok ⟨stack, .firstItem⟩ := if_pos h

theorem begin_brace (h : stack.length < maxDepth) :
    State.begin stack 0x7B = .ok ⟨stack, .firstKey⟩ := if_pos h

theorem begins_word (b c : UInt8) (rest : List UInt8) (u : Value)
    (hb : isBlank b = false ∧ b ≠ 0x5D)
    (hbegin : State.begin stack b = .ok ⟨stack, .literal (c :: rest) u⟩)
    (h : State.Accepts ⟨stack, .after u⟩ r v) : Begins stack (b :: c :: rest ++ r) v :=
  ⟨b, c :: rest ++ r, _, rfl, hb.1, hb.2, hbegin, accepts_word h c rest⟩

theorem begins_emptyArray (inside : List Blank) (hlt : stack.length < maxDepth)
    (h : State.Accepts ⟨stack, .after (.array [])⟩ r v) :
    Begins stack (Utf8.encode (Node.emptyArray inside).chars ++ r) v := by
  refine ⟨0x5B, Utf8.encode inside.unattach ++ 0x5D :: r, _, ?_, rfl, by decide,
    begin_bracket hlt, ?_⟩
  · rw [Node.chars, Utf8.encode_cons, Utf8.encode_append, List.append_assoc, List.append_assoc]
    rfl
  · apply accepts_blanks rfl inside
    exact ⟨⟨stack, .after (.array [])⟩, rfl, h⟩

theorem begins_emptyObject (inside : List Blank) (hlt : stack.length < maxDepth)
    (h : State.Accepts ⟨stack, .after (.object [])⟩ r v) :
    Begins stack (Utf8.encode (Node.emptyObject inside).chars ++ r) v := by
  refine ⟨0x7B, Utf8.encode inside.unattach ++ 0x7D :: r, _, ?_, rfl, by decide,
    begin_brace hlt, ?_⟩
  · rw [Node.chars, Utf8.encode_cons, Utf8.encode_append, List.append_assoc, List.append_assoc]
    rfl
  · apply accepts_blanks rfl inside
    exact ⟨⟨stack, .after (.object [])⟩, rfl, h⟩

theorem begins_array (before : List Blank) (hlt : stack.length < maxDepth)
    (h : Begins (.array [] :: stack) bs v) :
    Begins stack (0x5B :: (Utf8.encode before.unattach ++ bs)) v := by
  refine ⟨0x5B, _, _, rfl, rfl, by decide, begin_bracket hlt, ?_⟩
  exact accepts_blanks rfl before h.firstItem

theorem begins_object (before : List Blank) (hlt : stack.length < maxDepth)
    (h : State.Accepts ⟨stack, .keyText [] true .opened⟩ bs v) :
    Begins stack (0x7B :: (Utf8.encode before.unattach ++ 0x22 :: bs)) v := by
  refine ⟨0x7B, _, _, rfl, rfl, by decide, begin_brace hlt, ?_⟩
  apply accepts_blanks rfl before
  exact ⟨⟨stack, .keyText [] true .opened⟩, rfl, h⟩

theorem encode_label (l : Label) (r : List UInt8) :
    Utf8.encode l.chars ++ r = Utf8.encode l.before.unattach ++ 0x22 ::
      (Utf8.encode (Literal.body l.key) ++
        0x22 :: (Utf8.encode l.beforeColon.unattach ++ 0x3A ::
        (Utf8.encode l.afterColon.unattach ++ r))) := by
  simp only [Label.chars, Literal.chars, Utf8.encode_append, Utf8.encode_cons,
    List.append_assoc]
  rfl

theorem accepts_sealed (before after last : List Blank) (hl : Literal.Paired l)
    (hn : Literal.contentChars l = Numeral.chars n)
    (h : State.Accepts ⟨stack, .after (.number (String.ofList (keptChars n.chars)))⟩ r v) :
    State.Accepts ⟨stack, .sealedColon⟩
      (Utf8.encode before.unattach ++ 0x3A :: (Utf8.encode after.unattach ++
        0x22 :: (Utf8.encode (Literal.body l) ++
          0x22 :: (Utf8.encode last.unattach ++ 0x7D :: r))))
      v := by
  have hnumber : numberOfText (Literal.content l) = .ok (String.ofList (keptChars n.chars)) :=
    numberOfText_eq_ok_iff.mpr ⟨n, by rw [Literal.content, String.toList_ofList, hn], rfl⟩
  apply accepts_blanks rfl before
  refine ⟨⟨stack, .sealedValue⟩, rfl, ?_⟩
  apply accepts_blanks rfl after
  refine ⟨⟨stack, .sealedText .opened⟩, rfl, ?_⟩
  refine accepts_literal (f := fun scan => ⟨stack, .sealedText scan⟩)
    (t := ⟨stack, .sealedEnd (String.ofList (keptChars n.chars))⟩) ?_ ?_ hl ?_
  · intro scan b scan' hs
    simp only [State.step, hs]
  · intro scan b hs
    simp only [State.step, hs, StringScan.decode_content, bind, Except.bind, hnumber]
  · apply accepts_blanks rfl last
    exact ⟨_, rfl, h⟩

theorem accepts_comma_item (before after : List Blank)
    (h : Begins (.array (u :: items) :: stack) bs v) :
    State.Accepts ⟨.array items :: stack, .after u⟩
      (Utf8.encode before.unattach ++ 0x2C :: (Utf8.encode after.unattach ++ bs)) v := by
  refine accepts_blanks rfl before ⟨⟨stack, .item (u :: items)⟩, rfl, ?_⟩
  exact accepts_blanks rfl after h.item

theorem accepts_comma_member (before after : List Blank)
    (h : State.Accepts ⟨stack, .keyText (ms.insert key u) false .opened⟩ bs v) :
    State.Accepts ⟨.member ms key :: stack, .after u⟩
      (Utf8.encode before.unattach ++ 0x2C :: (Utf8.encode after.unattach ++ 0x22 :: bs)) v :=
        by
  refine accepts_blanks rfl before ⟨⟨stack, .key (ms.insert key u)⟩, rfl, ?_⟩
  apply accepts_blanks rfl after
  exact ⟨⟨stack, .keyText (ms.insert key u) false .opened⟩, rfl, h⟩

mutual

theorem begins_node (n : Node) (hn : n.Fine (roomIn stack))
    (h : State.Accepts ⟨stack, .after n.value⟩ r v) :
    Begins stack (Utf8.encode n.chars ++ r) v := by
  match n with
  | .null => exact begins_word 0x6E 0x75 [0x6C, 0x6C] .null (by decide) rfl h
  | .bool true => exact begins_word 0x74 0x72 [0x75, 0x65] (.bool true) (by decide) rfl h
  | .bool false =>
    exact begins_word 0x66 0x61 [0x6C, 0x73, 0x65] (.bool false) (by decide) rfl h
  | .number n => exact begins_number n h
  | .string l => exact begins_string hn.1 h
  | .emptyArray inside => exact begins_emptyArray inside (lt_of_depth hn.2.2) h
  | .emptyObject inside => exact begins_emptyObject inside (lt_of_depth hn.2.2) h
  | .array before item tail =>
    have hlt : stack.length < maxDepth := lt_of_depth hn.2.2
    rw [roomIn_cons hlt (.array [])] at hn
    obtain ⟨hitem, htail⟩ := Node.fine_array.mp hn
    have ht := accepts_itemTail tail [] item.value htail h
    have hb := begins_array before hlt (begins_node item hitem ht)
    simp only [Node.chars, Utf8.encode_cons, Utf8.encode_append, List.append_assoc] at hb ⊢
    exact hb
  | .object label value tail =>
    have hlt : stack.length < maxDepth := lt_of_depth hn.2.2
    rw [roomIn_cons hlt (.member [] label.key.content)] at hn
    obtain ⟨hl, hk, hvalue, htail⟩ := Node.fine_object.mp hn
    rw [Node.chars, Utf8.encode_cons, Utf8.encode_append, List.append_assoc, List.append_assoc,
      encode_label]
    refine begins_object label.before hlt (accepts_key hl ?_)
    by_cases hkey : label.key.content = numberKey
    · obtain ⟨⟨l, n, rfl, hcontent⟩, last, rfl⟩ := hk hkey
      rw [Node.value, if_pos hkey, Node.sealedText, hcontent] at h
      rw [State.keyed, if_pos (by simp [hkey])]
      have hs := accepts_sealed label.beforeColon label.afterColon last hvalue.1 hcontent h
      simp only [Node.chars, Literal.chars, EntryTail.chars, Utf8.encode_cons,
        Utf8.encode_append,
        List.append_assoc] at hs ⊢
      exact hs
    · rw [Node.value, if_neg hkey] at h
      rw [State.keyed, if_neg (by simp [hkey])]
      have ht := accepts_entryTail tail [] label.key.content value.value htail h
      have hb := (begins_node value hvalue ht).value
      rw [Utf8.encode_append, List.append_assoc]
      exact accepts_colon label.beforeColon label.afterColon hb

theorem accepts_itemTail (tail : ItemTail) (items : List Value) (u : Value)
    (ht : tail.Fine (roomIn (.array items :: stack)))
    (h : State.Accepts ⟨stack, .after (.array (items.reverse ++ u :: tail.values))⟩ r v) :
    State.Accepts ⟨.array items :: stack, .after u⟩ (Utf8.encode tail.chars ++ r) v := by
  match tail with
  | .close before =>
    rw [ItemTail.chars, Utf8.encode_append, List.append_assoc]
    refine accepts_blanks rfl before ⟨⟨stack, .after (.array (u :: items).reverse)⟩, rfl, ?_⟩
    rwa [List.reverse_cons]
  | .next beforeComma before item tail =>
    obtain ⟨hitem, htail⟩ := ItemTail.fine_next.mp ht
    have h' := accepts_itemTail tail (u :: items) item.value htail (by
      rwa [List.reverse_cons, List.append_assoc])
    have hb := accepts_comma_item beforeComma before (begins_node item hitem h')
    simp only [ItemTail.chars, Utf8.encode_cons, Utf8.encode_append, List.append_assoc] at hb ⊢
    exact hb

theorem accepts_entryTail (tail : EntryTail) (ms : Members) (key : String) (u : Value)
    (ht : tail.Fine (roomIn (.member ms key :: stack)))
    (h : State.Accepts ⟨stack, .after (.object (tail.members (ms.insert key u)))⟩ r v) :
    State.Accepts ⟨.member ms key :: stack, .after u⟩ (Utf8.encode tail.chars ++ r) v := by
  match tail with
  | .close before =>
    rw [EntryTail.chars, Utf8.encode_append, List.append_assoc]
    exact accepts_blanks rfl before ⟨⟨stack, .after (.object (ms.insert key u))⟩, rfl, h⟩
  | .next beforeComma label value tail =>
    obtain ⟨hl, hvalue, htail⟩ := EntryTail.fine_next.mp ht
    have h' := accepts_entryTail tail (ms.insert key u) label.key.content value.value htail h
    have hn : Begins (.member (ms.insert key u) label.key.content :: stack) _ v :=
      begins_node value hvalue h'
    have hb := accepts_colon label.beforeColon label.afterColon hn.value
    rw [EntryTail.chars, Utf8.encode_append, Utf8.encode_cons, Utf8.encode_append,
      Utf8.encode_append, List.append_assoc, List.append_assoc, List.append_assoc,
      List.append_assoc, encode_label]
    exact accepts_comma_member beforeComma label.before (accepts_key hl hb)

end

theorem accepts_text (t : Text) (h : t.node.Fine (roomIn [])) :
    start.Accepts (Utf8.encode t.chars) t.value := by
  have hend : State.Accepts ⟨[], .after t.value⟩ (Utf8.encode t.after.unattach) t.value := by
    rw [← List.append_nil (Utf8.encode t.after.unattach)]
    exact accepts_blanks rfl t.after rfl
  rw [Text.chars, Utf8.encode_append, Utf8.encode_append]
  exact accepts_blanks rfl t.before (begins_node t.node h hend).value

end SchemaSnapshot.Json
