import SchemaSnapshot.Http.Head

namespace SchemaSnapshot.Http.Head

/-- A line ends with a line feed, with or without a carriage return before it. -/
inductive IsLineEnd : List UInt8 → Prop
  | feed : IsLineEnd [lf]
  | returnFeed : IsLineEnd [cr, lf]

inductive IsMinor : UInt8 → Version → Prop
  | zero : IsMinor 0x30 .http10
  | one : IsMinor 0x31 .http11

def decimal (digits : List UInt8) : Nat :=
  digits.foldl (fun n b => n * 10 + (b.toNat - 0x30)) 0

/-- What stands between the code and the end of a status line: nothing, or a text after a blank.
-/
inductive IsReason : List UInt8 → Prop
  | none : IsReason []
  | text {text : List UInt8} : (∀ b ∈ text, isText b = true) → IsReason (0x20 :: text)

inductive StatusLine : List UInt8 → Version → Status → Prop
  | mk {digits : List UInt8} : IsMinor b v → digits.length = 3 →
      (∀ b ∈ digits, isDigit b = true) →
    IsReason reason → IsLineEnd e →
    StatusLine (octets "HTTP/1." ++ b :: 0x20 :: (digits ++ (reason ++ e))) v (decimal digits)

/-- The line of a field, and what it says. -/
inductive FieldLine : List UInt8 → Field → Prop
  | mk {name text : List UInt8} : name ≠ [] → (∀ b ∈ name, isToken b = true) →
    (∀ b ∈ text, isText b = true) → IsLineEnd e →
    FieldLine (name ++ 0x3A :: (text ++ e)) ⟨name.map lower, Text.trim isBlank text⟩

/-- The lines of some fields, and an empty line after them. -/
inductive FieldLines : List UInt8 → List Field → Prop
  | done : IsLineEnd e → FieldLines e []
  | field : FieldLine l f → FieldLines bs fs → FieldLines (l ++ bs) (f :: fs)

/-- The text of one head. Empty lines may stand before it. -/
structure Spells (t : List UInt8) (h : Head) : Prop where
  lines : ∃ (empty : List (List UInt8)) (line fields : List UInt8), (∀ e ∈ empty, IsLineEnd e) ∧
    StatusLine line h.version h.status ∧ FieldLines fields h.fields ∧
    t = empty.flatten ++ (line ++ fields)
  status : 100 ≤ h.status
  fields : h.fields.length ≤ maxFields
  names : ∀ f ∈ h.fields, f.name.length < maxNameLength
  length : t.length ≤ maxOctets

/-- The texts of some interim heads, and that of the final one. -/
inductive Announces : List UInt8 → Head → Prop
  | final : Spells t h → h.status.isInterim = false → Announces t h
  | interim : Spells t i → i.status.isInterim = true → Announces ts h → Announces (t ++ ts) h

theorem IsLineEnd.ne_nil (h : IsLineEnd e) : e ≠ [] := by
  cases h with
  | feed => exact List.cons_ne_nil _ _
  | returnFeed => exact List.cons_ne_nil _ _

theorem FieldLines.ne_nil (h : FieldLines bs fs) : bs ≠ [] := by
  cases h with
  | done he => exact he.ne_nil
  | field hf hl =>
    cases hf with
    | mk hn => simp [hn]

section Parts
variable {bs : List UInt8}

/-- A text to the end of its line, with `K` of the text and of what follows. -/
def TextLine (K : List UInt8 → List UInt8 → Prop) (bs : List UInt8) : Prop :=
  ∃ text e rest, (∀ b ∈ text, isText b = true) ∧ IsLineEnd e ∧ bs = text ++ (e ++ rest) ∧
    K text rest

def NameColon (K : List UInt8 → List UInt8 → Prop) (bs : List UInt8) : Prop :=
  ∃ name rest, (∀ b ∈ name, isToken b = true) ∧ bs = name ++ 0x3A :: rest ∧ K name rest

def Digits (n : Nat) (K : List UInt8 → List UInt8 → Prop) (bs : List UInt8) : Prop :=
  ∃ digits rest, digits.length = n ∧ (∀ b ∈ digits, isDigit b = true) ∧ bs = digits ++ rest ∧
    K digits rest

theorem lineEnd_cons_iff {K : List UInt8 → Prop} :
    (∃ e rest, IsLineEnd e ∧ b :: bs = e ++ rest ∧ K rest) ↔
      (b = cr ∧ ∃ rest, bs = lf :: rest ∧ K rest) ∨ b = lf ∧ K bs := by
  constructor
  · rintro ⟨e, rest, he | he, h, hk⟩
    · obtain ⟨rfl, rfl⟩ := List.cons.inj h
      exact .inr ⟨rfl, hk⟩
    · obtain ⟨rfl, rfl⟩ := List.cons.inj h
      exact .inl ⟨rfl, rest, rfl, hk⟩
  · rintro (⟨rfl, rest, rfl, hk⟩ | ⟨rfl, hk⟩)
    · exact ⟨_, rest, .returnFeed, rfl, hk⟩
    · exact ⟨_, bs, .feed, rfl, hk⟩

theorem textLine_cons_iff {K : List UInt8 → List UInt8 → Prop} :
    TextLine K (b :: bs) ↔ (b = cr ∧ ∃ rest, bs = lf :: rest ∧ K [] rest) ∨ (b = lf ∧ K [] bs) ∨
      isText b = true ∧ TextLine (fun text => K (b :: text)) bs := by
  constructor
  · rintro ⟨text, e, rest, ht, he, h, hk⟩
    cases text with
    | nil =>
      obtain h | h := lineEnd_cons_iff.mp ⟨e, rest, he, h, hk⟩
      · exact .inl h
      · exact .inr (.inl h)
    | cons c text =>
      obtain ⟨rfl, rfl⟩ := List.cons.inj h
      obtain ⟨hb, ht⟩ := List.forall_mem_cons.mp ht
      exact .inr (.inr ⟨hb, text, e, rest, ht, he, rfl, hk⟩)
  · rintro (h | h | ⟨hb, text, e, rest, ht, he, rfl, hk⟩)
    · obtain ⟨e, rest, he, h, hk⟩ := lineEnd_cons_iff.mpr (.inl h)
      exact ⟨[], e, rest, List.forall_mem_nil _, he, h, hk⟩
    · obtain ⟨e, rest, he, h, hk⟩ := lineEnd_cons_iff.mpr (.inr h)
      exact ⟨[], e, rest, List.forall_mem_nil _, he, h, hk⟩
    · exact ⟨b :: text, e, rest, List.forall_mem_cons.mpr ⟨hb, ht⟩, he, rfl, hk⟩

theorem nameColon_cons_iff {K : List UInt8 → List UInt8 → Prop} :
    NameColon K (b :: bs) ↔
      (b = 0x3A ∧ K [] bs) ∨ isToken b = true ∧ NameColon (fun name => K (b :: name)) bs := by
  constructor
  · rintro ⟨name, rest, hn, h, hk⟩
    cases name with
    | nil =>
      obtain ⟨rfl, rfl⟩ := List.cons.inj h
      exact .inl ⟨rfl, hk⟩
    | cons c name =>
      obtain ⟨rfl, rfl⟩ := List.cons.inj h
      obtain ⟨hb, hn⟩ := List.forall_mem_cons.mp hn
      exact .inr ⟨hb, name, rest, hn, rfl, hk⟩
  · rintro (⟨rfl, hk⟩ | ⟨hb, name, rest, hn, rfl, hk⟩)
    · exact ⟨[], bs, List.forall_mem_nil _, rfl, hk⟩
    · exact ⟨b :: name, rest, List.forall_mem_cons.mpr ⟨hb, hn⟩, rfl, hk⟩

theorem digits_zero_iff {K : List UInt8 → List UInt8 → Prop} : Digits 0 K bs ↔ K [] bs := by
  constructor
  · rintro ⟨digits, rest, hl, -, rfl, hk⟩
    obtain rfl := List.length_eq_zero_iff.mp hl
    exact hk
  · intro hk
    exact ⟨[], bs, rfl, List.forall_mem_nil _, rfl, hk⟩

theorem digits_cons_iff {K : List UInt8 → List UInt8 → Prop} :
    Digits (n + 1) K (b :: bs) ↔
      isDigit b = true ∧ Digits n (fun digits => K (b :: digits)) bs := by
  constructor
  · rintro ⟨digits, rest, hl, hd, h, hk⟩
    cases digits with
    | nil => cases hl
    | cons c digits =>
      obtain ⟨rfl, rfl⟩ := List.cons.inj h
      obtain ⟨hb, hd⟩ := List.forall_mem_cons.mp hd
      exact ⟨hb, digits, rest, Nat.succ.inj hl, hd, rfl, hk⟩
  · rintro ⟨hb, digits, rest, hl, hd, rfl, hk⟩
    exact ⟨b :: digits, rest, congrArg Nat.succ hl, List.forall_mem_cons.mpr ⟨hb, hd⟩, rfl, hk⟩

end Parts

def Draft.withFields (d : Draft) (fs : List Field) : Draft :=
  { d with fields := d.fields ++ fs, room := d.room - fs.length }

theorem Draft.withFields_cons (d : Draft) (f : Field) (fs : List Field) :
    (d.withFields [f]).withFields fs = d.withFields (f :: fs) := by
  have hroom : d.room - 1 - fs.length = d.room - (fs.length + 1) := by omega
  simp [withFields, hroom]

/-- From here on, fields and an empty line make `d'` of the draft, and `r` is left. -/
def Draft.Takes (d d' : Draft) (r bs : List UInt8) : Prop :=
  ∃ lines fs, FieldLines lines fs ∧ fs.length ≤ d.room ∧ d' = d.withFields fs ∧ bs = lines ++ r

def Draft.TakesAfter (d : Draft) (f : Field) (d' : Draft) (r bs : List UInt8) : Prop :=
  0 < d.room ∧ (d.withFields [f]).Takes d' r bs

section Reads
variable {d d' : Draft} {r bs : List UInt8} {b : UInt8}

theorem takes_cons_iff : d.Takes d' r (b :: bs) ↔
    (b = cr ∧ bs = lf :: r ∧ d' = d) ∨ (b = lf ∧ bs = r ∧ d' = d) ∨
      isToken b = true ∧ NameColon (fun name => TextLine fun text =>
        d.TakesAfter ⟨(b :: name).map lower, Text.trim isBlank text⟩ d' r) bs := by
  have hself : d.withFields [] = d := by simp [Draft.withFields]
  constructor
  · rintro ⟨lines, fs, hl, hroom, rfl, hbs⟩
    cases hl with
    | done he =>
      have hk : ∃ e rest, IsLineEnd e ∧ b :: bs = e ++ rest ∧ rest = r :=
        ⟨lines, r, he, hbs, rfl⟩
      rw [hself]
      obtain ⟨rfl, _, rfl, rfl⟩ | ⟨rfl, rfl⟩ := lineEnd_cons_iff.mp hk
      · exact .inl ⟨rfl, rfl, rfl⟩
      · exact .inr (.inl ⟨rfl, rfl, rfl⟩)
    | @field l f lines fs hf hl =>
      cases hf with
      | mk hn hname htext he =>
        obtain ⟨c, name, rfl⟩ := List.exists_cons_of_ne_nil hn
        simp only [List.cons_append, List.append_assoc] at hbs
        obtain ⟨rfl, rfl⟩ := List.cons.inj hbs
        obtain ⟨hb, hname⟩ := List.forall_mem_cons.mp hname
        rw [List.length_cons] at hroom
        refine .inr (.inr ⟨hb, name, _, hname, rfl, _, _, _, htext, he, rfl, by omega, ?_⟩)
        refine ⟨lines, fs, hl, ?_, (d.withFields_cons _ fs).symm, rfl⟩
        simp only [Draft.withFields, List.length_singleton]
        omega
  · rintro (⟨rfl, rfl, rfl⟩ | ⟨rfl, rfl, rfl⟩ | ⟨hb, name, _, hname, rfl, text, e, _, htext, he,
      rfl, hroom, lines, fs, hl, hlen, rfl, rfl⟩)
    · exact ⟨_, [], .done .returnFeed, Nat.zero_le _, hself.symm, rfl⟩
    · exact ⟨_, [], .done .feed, Nat.zero_le _, hself.symm, rfl⟩
    · have hf : FieldLine ((b :: name) ++ 0x3A :: (text ++ e)) _ :=
        .mk (List.cons_ne_nil b name) (List.forall_mem_cons.mpr ⟨hb, hname⟩) htext he
      refine ⟨_, _, .field hf hl, ?_, d.withFields_cons _ fs, by simp⟩
      simp only [Draft.withFields, List.length_singleton] at hlen
      rw [List.length_cons]
      omega

/-- From here on, an optional reason and the end of the status line, and then what the draft
takes. -/
def Draft.AfterCode (d d' : Draft) (r bs : List UInt8) : Prop :=
  ∃ reason e rest, IsReason reason ∧ IsLineEnd e ∧ bs = reason ++ (e ++ rest) ∧
    d.Takes d' r rest

theorem afterCode_cons_iff : d.AfterCode d' r (b :: bs) ↔
    (b = 0x20 ∧ TextLine (fun _ => d.Takes d' r) bs) ∨
      (b = cr ∧ ∃ rest, bs = lf :: rest ∧ d.Takes d' r rest) ∨ b = lf ∧ d.Takes d' r bs := by
  constructor
  · rintro ⟨_, e, rest, _ | htext, he, h, hk⟩
    · exact .inr (lineEnd_cons_iff.mp ⟨e, rest, he, h, hk⟩)
    · obtain ⟨rfl, rfl⟩ := List.cons.inj h
      exact .inl ⟨rfl, _, e, rest, htext, he, rfl, hk⟩
  · rintro (⟨rfl, text, e, rest, htext, he, rfl, hk⟩ | h)
    · exact ⟨_, e, rest, .text htext, he, rfl, hk⟩
    · obtain ⟨e, rest, he, h, hk⟩ := lineEnd_cons_iff.mpr h
      exact ⟨[], e, rest, .none, he, h, hk⟩

def goOn (n : Nat) (digits : List UInt8) : Nat :=
  digits.foldl (fun n b => n * 10 + (b.toNat - 0x30)) n

def Draft.Codes (n : Nat) (d d' : Draft) (r : List UInt8) : List UInt8 → Prop :=
  Digits n fun digits => { d with status := goOn d.status digits }.AfterCode d' r

def AtMinor (d' : Draft) (r bs : List UInt8) : Prop :=
  ∃ b v rest, IsMinor b v ∧ bs = b :: 0x20 :: rest ∧ Draft.Codes 3 { version := v } d' r rest

def AtStart (d' : Draft) (r bs : List UInt8) : Prop :=
  ∃ (empty : List (List UInt8)) (rest : List UInt8), (∀ e ∈ empty, IsLineEnd e) ∧
    bs = empty.flatten ++ (protocolMark ++ rest) ∧ AtMinor d' r rest

theorem atStart_cons_iff : AtStart d' r (b :: bs) ↔
    (b = cr ∧ ∃ rest, bs = lf :: rest ∧ AtStart d' r rest) ∨ (b = lf ∧ AtStart d' r bs) ∨
      ∃ rest, b :: bs = protocolMark ++ rest ∧ AtMinor d' r rest := by
  constructor
  · rintro ⟨empty, rest, he, h, hk⟩
    cases empty with
    | nil => exact .inr (.inr ⟨rest, h, hk⟩)
    | cons e empty =>
      obtain ⟨he, hempty⟩ := List.forall_mem_cons.mp he
      have hstart : AtStart d' r (empty.flatten ++ (protocolMark ++ rest)) :=
        ⟨empty, rest, hempty, rfl, hk⟩
      obtain h | h := lineEnd_cons_iff.mp ⟨e, _, he, h.trans (List.append_assoc ..), hstart⟩
      · exact .inl h
      · exact .inr (.inl h)
  · intro h
    rw [← or_assoc, ← lineEnd_cons_iff] at h
    obtain ⟨e, _, he, h, empty, rest, hempty, rfl, hk⟩ | ⟨rest, h, hk⟩ := h
    · exact ⟨e :: empty, rest, List.forall_mem_cons.mpr ⟨he, hempty⟩,
        h.trans (List.append_assoc ..).symm, hk⟩
    · exact ⟨[], rest, List.forall_mem_nil _, h, hk⟩

theorem atMinor_cons_iff : AtMinor d' r (b :: bs) ↔
    (b = 0x30 ∧ ∃ rest, bs = 0x20 :: rest ∧ Draft.Codes 3 { version := .http10 } d' r rest) ∨
      b = 0x31 ∧ ∃ rest, bs = 0x20 :: rest ∧
        Draft.Codes 3 { version := .http11 } d' r rest := by
  constructor
  · rintro ⟨_, _, rest, _ | _, h, hk⟩
    · obtain ⟨rfl, rfl⟩ := List.cons.inj h
      exact .inl ⟨rfl, rest, rfl, hk⟩
    · obtain ⟨rfl, rfl⟩ := List.cons.inj h
      exact .inr ⟨rfl, rest, rfl, hk⟩
  · rintro (⟨rfl, rest, rfl, hk⟩ | ⟨rfl, rest, rfl, hk⟩)
    · exact ⟨_, _, rest, .zero, rfl, hk⟩
    · exact ⟨_, _, rest, .one, rfl, hk⟩

/-- The value that goes on with an octet, from back to front and without blanks before it. -/
def push (v : List UInt8) (b : UInt8) : List UInt8 :=
  if v = [] ∧ isBlank b then [] else b :: v

def settled (v : List UInt8) : List UInt8 :=
  (v.dropWhile isBlank).reverse

theorem foldl_push {v : List UInt8} (h : v ≠ []) (text : List UInt8) :
    text.foldl push v = text.reverse ++ v := by
  induction text generalizing v with
  | nil => rfl
  | cons b text ih =>
    have hp : push v b = b :: v := if_neg fun hv => h hv.1
    rw [List.foldl_cons, hp, ih (List.cons_ne_nil b v), List.reverse_cons, List.append_assoc,
      List.singleton_append]

theorem settled_foldl_push (text : List UInt8) :
    settled (text.foldl push []) = Text.trim isBlank text := by
  have hp : text.foldl push [] = (text.dropWhile isBlank).reverse := by
    induction text with
    | nil => rfl
    | cons b text ih =>
      by_cases hb : isBlank b = true
      · have hpush : push [] b = [] := if_pos ⟨rfl, hb⟩
        rw [List.foldl_cons, hpush, ih, List.dropWhile_cons_of_pos hb]
      · have hpush : push [] b = [b] := if_neg fun h => hb h.2
        rw [List.foldl_cons, hpush, foldl_push (List.cons_ne_nil b []),
          List.dropWhile_cons_of_neg hb, List.reverse_cons]
  rw [settled, hp, Text.trim]

/-- What the octets are from a state on, if they are read to the end of a head. -/
def State.Reads (s : State) (d' : Draft) (r bs : List UInt8) : Prop :=
  match s with
  | .start => AtStart d' r bs
  | .startFeed => ∃ rest, bs = lf :: rest ∧ AtStart d' r rest
  | .protocol mark => mark ≠ [] ∧ ∃ rest, bs = mark ++ rest ∧ AtMinor d' r rest
  | .minor => AtMinor d' r bs
  | .space d => ∃ rest, bs = 0x20 :: rest ∧ d.Codes 3 d' r rest
  | .code d n => d.Codes (n - 1 + 1) d' r bs
  | .afterCode d => d.AfterCode d' r bs
  | .reason d => TextLine (fun _ => d.Takes d' r) bs
  | .statusFeed d => ∃ rest, bs = lf :: rest ∧ d.Takes d' r rest
  | .line d => d.Takes d' r bs
  | .name d n => NameColon (fun name => TextLine fun text =>
      d.TakesAfter ⟨(n.reverse ++ name).map lower, Text.trim isBlank text⟩ d' r) bs
  | .value d n v => TextLine (fun text =>
      d.TakesAfter ⟨n.reverse.map lower, settled (text.foldl push v)⟩ d' r) bs
  | .valueFeed d n v =>
    ∃ rest, bs = lf :: rest ∧ d.TakesAfter ⟨n.reverse.map lower, settled v⟩ d' r rest
  | .endFeed d => bs = lf :: r ∧ d' = d

def Step.Reads (s : Step) (d' : Draft) (r bs : List UInt8) : Prop :=
  match s with
  | .more t => t.Reads d' r bs
  | .done d => d' = d ∧ bs = r
  | .failed _ => False

theorem reads_addField {n v : List UInt8} : (d.addField n v).Reads d' r bs ↔
    d.TakesAfter ⟨n.reverse.map lower, settled v⟩ d' r bs := by
  unfold Draft.addField
  split
  · next h => simp [Step.Reads, Draft.TakesAfter, h]
  · next h => simp [Step.Reads, State.Reads, Draft.TakesAfter, Draft.withFields, settled, h]

theorem reads_expectProtocol {c : UInt8} {mark : List UInt8} :
    (expectProtocol b (c :: mark)).Reads d' r bs ↔
      ∃ rest, b :: bs = c :: mark ++ rest ∧ AtMinor d' r rest := by
  rw [expectProtocol]
  by_cases hb : b = c
  · by_cases hm : mark = []
    · simp [hb, hm, Step.Reads, State.Reads]
    · simp [hb, hm, Step.Reads, State.Reads]
  · simp [hb, Step.Reads]

theorem cr_ne_lf : cr ≠ lf := by decide

theorem isText_cr : isText cr = false := by decide

theorem isText_lf : isText lf = false := by decide

theorem isToken_cr : isToken cr = false := by decide

theorem isToken_lf : isToken lf = false := by decide

theorem isToken_colon : isToken 0x3A = false := by decide

theorem reads_cons_iff {s : State} : s.Reads d' r (b :: bs) ↔ (s.step b).Reads d' r bs := by
  cases s with
  | start =>
    have hmark : protocolMark = 0x48 :: octets "TTP/1." := rfl
    rw [State.Reads, atStart_cons_iff, State.step, hmark, ← reads_expectProtocol]
    by_cases hcr : b = cr
    · subst hcr
      have hne : cr ≠ 0x48 := by decide
      simp [Step.Reads, State.Reads, cr_ne_lf, expectProtocol, hne]
    · by_cases hlf : b = lf
      · subst hlf
        have hne : lf ≠ 0x48 := by decide
        simp [Step.Reads, State.Reads, hcr, expectProtocol, hne]
      · simp [hcr, hlf]
  | startFeed =>
    by_cases hlf : b = lf
    · simp [State.Reads, State.step, Step.Reads, hlf]
    · simp [State.Reads, State.step, Step.Reads, hlf]
  | protocol mark =>
    cases mark with
    | nil => simp [State.Reads, State.step, Step.Reads, expectProtocol]
    | cons c mark =>
      rw [State.Reads, State.step, reads_expectProtocol]
      simp
  | minor =>
    rw [State.Reads, atMinor_cons_iff, State.step]
    by_cases h0 : b = 0x30
    · simp [Step.Reads, State.Reads, h0]
    · by_cases h1 : b = 0x31
      · simp [Step.Reads, State.Reads, h1]
      · simp [Step.Reads, h0, h1]
  | space d =>
    by_cases hb : b = 0x20
    · simp [State.Reads, State.step, Step.Reads, hb]
    · simp [State.Reads, State.step, Step.Reads, hb]
  | code d n =>
    rw [State.Reads, Draft.Codes, digits_cons_iff, State.step]
    by_cases hd : isDigit b = true
    · by_cases hn : n ≤ 1
      · have hz : n - 1 = 0 := by omega
        simp [Step.Reads, State.Reads, hd, hn, hz, digits_zero_iff, goOn]
      · have hs : n - 1 - 1 + 1 = n - 1 := by omega
        simp [Step.Reads, State.Reads, hd, hn, hs, Draft.Codes, goOn]
    · simp [Step.Reads, hd]
  | afterCode d =>
    rw [State.Reads, afterCode_cons_iff, State.step]
    by_cases hb : b = 0x20
    · have hcr : (0x20 : UInt8) ≠ cr := by decide
      have hlf : (0x20 : UInt8) ≠ lf := by decide
      simp [Step.Reads, State.Reads, hb, hcr, hlf]
    · by_cases hcr : b = cr
      · have hne : cr ≠ 0x20 := by decide
        simp [Step.Reads, State.Reads, hcr, cr_ne_lf, hne]
      · by_cases hlf : b = lf
        · have hne : lf ≠ 0x20 := by decide
          simp [Step.Reads, State.Reads, hlf, cr_ne_lf.symm, hne]
        · simp [Step.Reads, hb, hcr, hlf]
  | reason d =>
    rw [State.Reads, textLine_cons_iff, State.step]
    by_cases hcr : b = cr
    · simp [Step.Reads, State.Reads, hcr, cr_ne_lf, isText_cr]
    · by_cases hlf : b = lf
      · simp [Step.Reads, State.Reads, hlf, cr_ne_lf.symm, isText_lf]
      · by_cases ht : isText b = true
        · simp [Step.Reads, State.Reads, hcr, hlf, ht]
        · simp [Step.Reads, hcr, hlf, ht]
  | statusFeed d =>
    by_cases hlf : b = lf
    · simp [State.Reads, State.step, Step.Reads, hlf]
    · simp [State.Reads, State.step, Step.Reads, hlf]
  | line d =>
    rw [State.Reads, takes_cons_iff, State.step]
    by_cases hcr : b = cr
    · simp [Step.Reads, State.Reads, hcr, cr_ne_lf, isToken_cr]
    · by_cases hlf : b = lf
      · simp [Step.Reads, hlf, cr_ne_lf.symm, isToken_lf, and_comm]
      · by_cases ht : isToken b = true
        · simp [Step.Reads, State.Reads, hcr, hlf, ht]
        · simp [Step.Reads, hcr, hlf, ht]
  | name d n =>
    rw [State.Reads, nameColon_cons_iff, State.step]
    by_cases hb : b = 0x3A
    · simp [Step.Reads, State.Reads, hb, isToken_colon, settled_foldl_push]
    · by_cases ht : isToken b = true
      · simp [Step.Reads, State.Reads, hb, ht]
      · simp [Step.Reads, hb, ht]
  | value d n v =>
    rw [State.Reads, textLine_cons_iff, State.step]
    by_cases hcr : b = cr
    · simp [Step.Reads, State.Reads, hcr, cr_ne_lf, isText_cr]
    · by_cases hlf : b = lf
      · simp [hlf, cr_ne_lf.symm, isText_lf, reads_addField]
      · by_cases ht : isText b = true
        · simp [Step.Reads, State.Reads, hcr, hlf, ht, push]
        · simp [Step.Reads, hcr, hlf, ht]
  | valueFeed d n v =>
    by_cases hlf : b = lf
    · simp [State.Reads, State.step, hlf, reads_addField]
    · simp [State.Reads, State.step, Step.Reads, hlf]
  | endFeed d =>
    by_cases hlf : b = lf
    · simp [State.Reads, State.step, Step.Reads, hlf, and_comm]
    · simp [State.Reads, State.step, Step.Reads, hlf]

theorem not_reads_nil {s : State} : ¬ s.Reads d' r [] := by
  have htext {K : List UInt8 → List UInt8 → Prop} : ¬ TextLine K [] := by
    rintro ⟨text, e, rest, -, he, h, -⟩
    exact he.ne_nil (by simp_all)
  cases s with
  | start => simp [State.Reads, AtStart, protocolMark, octets, Utf8.encode]
  | code d n =>
    rintro ⟨digits, rest, hl, -, h, -⟩
    obtain ⟨rfl, -⟩ := List.append_eq_nil_iff.mp h.symm
    cases hl
  | afterCode d =>
    rintro ⟨reason, e, rest, -, he, h, -⟩
    exact he.ne_nil (by simp_all)
  | line d =>
    rintro ⟨lines, fs, hl, -, -, h⟩
    exact hl.ne_nil (List.append_eq_nil_iff.mp h.symm).1
  | reason d => exact htext
  | value d n v => exact htext
  | _ => simp [State.Reads, NameColon, AtMinor]

theorem readFrom_eq_ok_iff {s : State} : readFrom s bs = .ok (d', r) ↔ s.Reads d' r bs := by
  induction bs generalizing s with
  | nil =>
    rw [readFrom]
    exact iff_of_false (by simp) not_reads_nil
  | cons b bs ih =>
    rw [reads_cons_iff, readFrom]
    cases s.step b with
    | more t => exact ih
    | done d => simp [Step.Reads, eq_comm]
    | failed e => simp [Step.Reads]

end Reads

section Whole
variable {d : Draft} {h : Head} {t r bs : List UInt8}

/-- The draft that is made of the text of a head. -/
def Draft.SpelledBy (d : Draft) (t : List UInt8) : Prop :=
  ∃ (empty : List (List UInt8)) (line fields : List UInt8), (∀ e ∈ empty, IsLineEnd e) ∧
    StatusLine line d.version d.status ∧ FieldLines fields d.fields ∧
    d.fields.length ≤ maxFields ∧ d.room = maxFields - d.fields.length ∧
    t = empty.flatten ++ (line ++ fields)

theorem readFrom_start_eq_ok_iff :
    readFrom .start bs = .ok (d, r) ↔ ∃ t, d.SpelledBy t ∧ bs = t ++ r := by
  rw [readFrom_eq_ok_iff]
  constructor
  · rintro ⟨empty, _, he, rfl, b, v, _, hb, rfl, digits, _, hl, hd, rfl, reason,
      e, _, hr, hline, rfl, fields, fs, hf, hlen, rfl, rfl⟩
    refine ⟨_, ⟨empty, _, fields, he, .mk hb hl hd hr hline, hf, hlen, rfl, rfl⟩, ?_⟩
    simp [protocolMark]
  · rintro ⟨_, ⟨empty, _, fields, he, hs, hf, hlen, hroom, rfl⟩, rfl⟩
    obtain ⟨version, status, fs, room⟩ := d
    cases hs with
    | @mk b _ reason e digits hb hl hd hr hline =>
      dsimp only at hroom hlen
      subst hroom
      refine ⟨empty, _, he, ?_, b, version, _, hb, rfl, digits, _, hl, hd, rfl,
        reason, e, _, hr, hline, rfl, fields, fs, hf, hlen, rfl, rfl⟩
      simp [protocolMark]

theorem readFirst_eq_ok_iff :
    readFirst bs = .ok (d, r) ↔ ∃ t, d.SpelledBy t ∧ t.length ≤ maxOctets ∧ bs = t ++ r := by
  constructor
  · intro h
    unfold readFirst at h
    split at h
    · next d' rest hr =>
      obtain ⟨rfl, rfl⟩ := Prod.mk.inj (Except.ok.inj h)
      obtain ⟨t, ht, htake⟩ := readFrom_start_eq_ok_iff.mp hr
      refine ⟨t, ht, ?_, ?_⟩
      · have hl := congrArg List.length htake
        rw [List.length_take, List.length_append] at hl
        omega
      · rw [← List.append_assoc, ← htake, List.take_append_drop]
    · cases h
    · cases h
  · rintro ⟨t, ht, hl, rfl⟩
    have htake : (t ++ r).take maxOctets = t ++ r.take (maxOctets - t.length) := by
      rw [List.take_append, List.take_of_length_le hl]
    have hread := readFrom_start_eq_ok_iff.mpr ⟨t, ht, htake⟩
    have hdrop : (t ++ r).drop maxOctets = r.drop (maxOctets - t.length) := by
      rw [List.drop_append, List.drop_of_length_le hl, List.nil_append]
    rw [readFirst, hread]
    simp only [hdrop, List.take_append_drop]

theorem Draft.toHead_eq_ok_iff : d.toHead = .ok h ↔
    100 ≤ d.status ∧ (∀ f ∈ d.fields, f.name.length < maxNameLength) ∧
      h = ⟨d.version, d.status, d.fields⟩ := by
  unfold toHead
  split
  · next hs => simp [Nat.not_le.mpr hs]
  · next hs =>
    split
    · next hn =>
      obtain ⟨f, hf, hl⟩ := List.any_eq_true.mp hn
      have hnot : ¬ ∀ f ∈ d.fields, f.name.length < maxNameLength :=
        fun h => absurd (h f hf) (by simpa using hl)
      simp [hnot]
    · next hn =>
      have hall : ∀ f ∈ d.fields, f.name.length < maxNameLength := by simpa using hn
      rw [Except.ok.injEq, eq_comm]
      exact ⟨fun h => ⟨Nat.not_lt.mp hs, hall, h⟩, fun h => h.2.2⟩

/-- The text of a head is what is read first, and the head is what the draft says. -/
theorem spells_iff :
    Spells t h ↔ ∃ d : Draft, d.SpelledBy t ∧ t.length ≤ maxOctets ∧ d.toHead = .ok h := by
  constructor
  · rintro ⟨⟨empty, line, fields, he, hs, hf, rfl⟩, hstatus, hlen, hnames, hoctets⟩
    exact ⟨⟨h.version, h.status, h.fields, maxFields - h.fields.length⟩,
      ⟨empty, line, fields, he, hs, hf, hlen, rfl, rfl⟩, hoctets,
      Draft.toHead_eq_ok_iff.mpr ⟨hstatus, hnames, rfl⟩⟩
  · rintro ⟨d, ⟨empty, line, fields, he, hs, hf, hlen, -, rfl⟩, hoctets, hh⟩
    obtain ⟨hstatus, hnames, rfl⟩ := Draft.toHead_eq_ok_iff.mp hh
    exact ⟨⟨empty, line, fields, he, hs, hf, rfl⟩, hstatus, hlen, hnames, hoctets⟩

theorem exists_announces_of_read (hr : read bs = .ok (h, r)) :
    ∃ t, Announces t h ∧ bs = t ++ r := by
  fun_induction read bs with
  | case1 => cases hr
  | case2 => cases hr
  | case3 bs d rest hd head hh hi hlt ih =>
    obtain ⟨t, ht, hl, rfl⟩ := readFirst_eq_ok_iff.mp hd
    obtain ⟨ts, hts, rfl⟩ := ih hr
    exact ⟨t ++ ts, .interim (spells_iff.mpr ⟨d, ht, hl, hh⟩) hi hts,
      (List.append_assoc ..).symm⟩
  | case4 bs d rest hd head hh hi =>
    obtain ⟨t, ht, hl, rfl⟩ := readFirst_eq_ok_iff.mp hd
    obtain ⟨rfl, rfl⟩ := Prod.mk.inj (Except.ok.inj hr)
    exact ⟨t, .final (spells_iff.mpr ⟨d, ht, hl, hh⟩) (by simpa using hi), rfl⟩

theorem read_of_readFirst (hd : readFirst bs = .ok (d, r)) (hh : d.toHead = .ok h) :
    read bs = if h.status.isInterim then read r else .ok (h, r) := by
  rw [read]
  split
  · next he => cases hd.symm.trans he
  · next d' r' he =>
    obtain ⟨rfl, rfl⟩ := Prod.mk.inj (Except.ok.inj (hd.symm.trans he))
    rw [hh]

theorem read_of_announces (ha : Announces t h) (r : List UInt8) :
    read (t ++ r) = .ok (h, r) := by
  induction ha with
  | @final t h hs hi =>
    obtain ⟨d, ht, hl, hh⟩ := spells_iff.mp hs
    rw [read_of_readFirst (readFirst_eq_ok_iff.mpr ⟨t, ht, hl, rfl⟩) hh, hi]
    rfl
  | @interim t i ts h hs hi _ ih =>
    obtain ⟨d, ht, hl, hh⟩ := spells_iff.mp hs
    rw [List.append_assoc, read_of_readFirst (readFirst_eq_ok_iff.mpr ⟨t, ht, hl, rfl⟩) hh,
      if_pos hi, ih]

/-- The heads that are read are those that are announced. -/
theorem read_eq_ok_iff : read bs = .ok (h, r) ↔ ∃ t, Announces t h ∧ bs = t ++ r := by
  constructor
  · exact exists_announces_of_read
  · rintro ⟨t, ha, rfl⟩
    exact read_of_announces ha r

end Whole

end SchemaSnapshot.Http.Head
