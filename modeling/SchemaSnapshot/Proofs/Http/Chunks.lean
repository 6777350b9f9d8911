import SchemaSnapshot.Http.Body
import SchemaSnapshot.Proofs.Http.Head

namespace SchemaSnapshot.Http.Chunks
open Head (cr lf isBlank)

/-- The size whose further digits these are, `n` being what the digits before them gave. -/
def size? (n : Nat) : List UInt8 → Option Nat
  | [] => some n
  | b :: bs => (Hex.value? b.toNat).bind fun x => size? (n * 16 + x) bs

/-- The end of the line of a size, with an extension of `left` octets at most. -/
def LineEnd (left : Nat) (bs : List UInt8) (left' : Nat) (r : List UInt8) : Prop :=
  (bs = cr :: lf :: r ∧ left' = left) ∨
    ∃ e : List UInt8, bs = 0x3B :: (e ++ cr :: lf :: r) ∧ (∀ b ∈ e, b ≠ cr ∧ b ≠ lf) ∧
      e.length ≤ left ∧ left' = left - e.length

def SizeLine (left : Nat) (bs : List UInt8) (n left' : Nat) (r : List UInt8) : Prop :=
  ∃ digits blanks bs' : List UInt8, bs = digits ++ (blanks ++ bs') ∧ digits ≠ [] ∧
    size? 0 digits = some n ∧ n < UInt64.size ∧ (∀ b ∈ blanks, isBlank b = true) ∧
      LineEnd left bs' left' r

/-- The text begins with so many fields at most, and an empty line after them. -/
def HoldsFields (n : Nat) (text : List UInt8) : Prop :=
  ∃ lines fs rest, Head.FieldLines lines fs ∧ fs.length ≤ n ∧ text = lines ++ rest

/-- The lines after the last chunk and the empty line that ends them, if `before` and in it so
many lines came first. Taken together they are not too long and begin with fields, one for each
line at most; a line ends only where a carriage return is. -/
inductive Trailers : List UInt8 → Nat → List UInt8 → Prop
  | done {before : List UInt8} : (before ++ [cr, lf]).length ≤ maxExtra → n < Head.maxFields →
    HoldsFields n (before ++ [cr, lf]) → Trailers before n (cr :: lf :: r)
  | line {before l : List UInt8} : l ≠ [] → cr ∉ l →
      Trailers (before ++ (l ++ [cr, lf])) (n + 1) bs →
    Trailers before n (l ++ cr :: lf :: bs)

/-- A body in chunks and the octets in it; extensions take `left` octets at most. -/
inductive Chunked : Nat → List UInt8 → List UInt8 → Prop
  | last : SizeLine left bs 0 left' r → Trailers [] 0 r → Chunked left bs []
  | chunk {data : List UInt8} : SizeLine left bs data.length left' (data ++ cr :: lf :: r) →
    data ≠ [] → Chunked left' r body → Chunked left bs (data ++ body)

def AfterLine (left n : Nat) (r tail : List UInt8) : Prop :=
  (n = 0 ∧ tail = [] ∧ Trailers [] 0 r) ∨
    ∃ data r' body : List UInt8, data ≠ [] ∧ data.length = n ∧ r = data ++ cr :: lf :: r' ∧
      tail = data ++ body ∧ Chunked left r' body

theorem chunked_of_afterLine (h : SizeLine left bs n left' r) (ha : AfterLine left' n r tail) :
    Chunked left bs tail := by
  obtain ⟨rfl, rfl, ht⟩ | ⟨data, r', body, hd, rfl, rfl, rfl, hc⟩ := ha
  · exact .last h ht
  · exact .chunk h hd hc

theorem holdsFields_iff :
    HoldsFields n text ↔ ∃ p, Head.readFrom (.line { room := n }) text = .ok p := by
  constructor
  · rintro ⟨lines, fs, rest, hl, hn, ht⟩
    exact ⟨(_, rest), Head.readFrom_eq_ok_iff.mpr ⟨lines, fs, hl, hn, rfl, ht⟩⟩
  · rintro ⟨⟨d, rest⟩, hr⟩
    obtain ⟨lines, fs, hl, hn, -, ht⟩ := Head.readFrom_eq_ok_iff.mp hr
    exact ⟨lines, fs, rest, hl, hn, ht⟩

theorem Trailer.finish_cases (t : Trailer) :
    (t.finish = .done ∧ t.lines < Head.maxFields ∧ HoldsFields t.lines t.text.reverse) ∨
      (∃ e, t.finish = .failed e) ∧
        ¬ (t.lines < Head.maxFields ∧ HoldsFields t.lines t.text.reverse) := by
  rw [finish, holdsFields_iff]
  by_cases hl : t.lines < Head.maxFields
  · cases hr : Head.readFrom (.line { room := t.lines }) t.text.reverse with
    | ok p => simp [hl]
    | error e => simp [hl]
  · simp [hl]

theorem Trailers.length_le (h : Trailers before n bs) : before.length + 2 ≤ maxExtra := by
  induction h with
  | done hlen _ _ => simpa using hlen
  | line _ _ _ ih =>
    rw [List.length_append] at ih
    omega

theorem trailers_cons_iff : Trailers before n (b :: bs) ↔
    (b = cr ∧ ∃ r, bs = lf :: r ∧ (before ++ [cr, lf]).length ≤ maxExtra ∧ n < Head.maxFields ∧
      HoldsFields n (before ++ [cr, lf])) ∨
    b ≠ cr ∧ ∃ l r, cr ∉ l ∧ bs = l ++ cr :: lf :: r ∧
      Trailers (before ++ (b :: l ++ [cr, lf])) (n + 1) r := by
  constructor
  · intro h
    generalize hbs : b :: bs = all at h
    cases h with
    | done hlen hn hf =>
      obtain ⟨rfl, rfl⟩ := List.cons.inj hbs
      exact .inl ⟨rfl, _, rfl, hlen, hn, hf⟩
    | line hne hcr ht =>
      obtain ⟨c, l, rfl⟩ := List.exists_cons_of_ne_nil hne
      obtain ⟨rfl, rfl⟩ := List.cons.inj hbs
      rw [List.mem_cons, not_or] at hcr
      exact .inr ⟨Ne.symm hcr.1, l, _, hcr.2, rfl, ht⟩
  · rintro (⟨rfl, r, rfl, hlen, hn, hf⟩ | ⟨hb, l, r, hcr, rfl, ht⟩)
    · exact .done hlen hn hf
    · refine @Trailers.line _ _ _ (b :: l) (List.cons_ne_nil b l) ?_ ht
      rw [List.mem_cons, not_or]
      exact ⟨Ne.symm hb, hcr⟩

def State.Trailing : State → Prop
  | .lineStart _ | .line _ | .lineFeed _ | .endFeed _ => True
  | _ => False

/-- What the octets still are after the last chunk. -/
def State.Trails (s : State) (bs : List UInt8) : Prop :=
  match s with
  | .lineStart t => Trailers t.text.reverse t.lines bs
  | .line t =>
    ∃ l r, cr ∉ l ∧ bs = l ++ cr :: lf :: r ∧
      Trailers (t.text.reverse ++ (l ++ [cr, lf])) (t.lines + 1) r
  | .lineFeed t => ∃ r, bs = lf :: r ∧ Trailers (t.text.reverse ++ [lf]) (t.lines + 1) r
  | .endFeed t =>
    ∃ r, bs = lf :: r ∧ (t.text.reverse ++ [lf]).length ≤ maxExtra ∧ t.lines < Head.maxFields ∧
      HoldsFields t.lines (t.text.reverse ++ [lf])
  | _ => False

def Step.Trails (s : Step) (bs : List UInt8) : Prop :=
  match s with
  | .more d => d.state.Trails bs
  | .done => True
  | .failed _ => False

theorem trails_trail (d : Draft) (t : Trailer) {state : Trailer → State}
    (h : (state { t with text := b :: t.text }).Trails bs → t.text.length < maxExtra) :
    (d.trail t b state).Trails bs ↔ (state { t with text := b :: t.text }).Trails bs := by
  rw [Draft.trail]
  split
  · exact Iff.rfl
  · next hl => exact iff_of_false id fun hs => hl (h hs)

theorem trails_endFeed_iff {t : Trailer} (hb : b = cr) :
    (State.endFeed { t with text := b :: t.text }).Trails bs ↔
      ∃ r, bs = lf :: r ∧ (t.text.reverse ++ [cr, lf]).length ≤ maxExtra ∧
        t.lines < Head.maxFields ∧ HoldsFields t.lines (t.text.reverse ++ [cr, lf]) := by
  simp only [State.Trails, List.reverse_cons, List.append_assoc, List.cons_append,
    List.nil_append, hb]

theorem trails_line_iff {t : Trailer} :
    (State.line { t with text := b :: t.text }).Trails bs ↔
      ∃ l r, cr ∉ l ∧ bs = l ++ cr :: lf :: r ∧
        Trailers (t.text.reverse ++ (b :: l ++ [cr, lf])) (t.lines + 1) r := by
  simp only [State.Trails, List.reverse_cons, List.append_assoc, List.cons_append,
    List.nil_append]

theorem trails_lineFeed_iff {t : Trailer} (hb : b = cr) :
    (State.lineFeed { t with text := b :: t.text }).Trails bs ↔
      ∃ r, bs = lf :: r ∧ Trailers (t.text.reverse ++ [cr, lf]) (t.lines + 1) r := by
  simp only [State.Trails, List.reverse_cons, List.append_assoc, List.cons_append,
    List.nil_append, hb]

theorem length_of_line {t : Trailer}
    (h : (State.line { t with text := b :: t.text }).Trails bs) :
    t.text.length < maxExtra := by
  obtain ⟨l, r, -, -, ht⟩ := trails_line_iff.mp h
  have := ht.length_le
  rw [List.length_append, List.length_append, List.length_reverse, List.length_cons] at this
  omega

theorem trails_lineStart_step (d : Draft) (t : Trailer) :
    (State.lineStart t).Trails (b :: bs) ↔
      (d.trail t b (if b = cr then .endFeed else .line)).Trails bs := by
  apply trailers_cons_iff.trans
  by_cases hb : b = cr
  · rw [if_pos hb, trails_trail, trails_endFeed_iff hb]
    · simp [hb]
    · intro h
      obtain ⟨r, -, hlen, -⟩ := (trails_endFeed_iff hb).mp h
      rw [List.length_append, List.length_reverse] at hlen
      exact Nat.lt_of_lt_of_le (Nat.lt_add_of_pos_right Nat.two_pos) hlen
  · rw [if_neg hb, trails_trail d t length_of_line, trails_line_iff]
    simp [hb]

theorem trails_line_step (d : Draft) (t : Trailer) :
    (State.line t).Trails (b :: bs) ↔
      (d.trail t b (if b = cr then .lineFeed else .line)).Trails bs := by
  by_cases hb : b = cr
  · rw [if_pos hb, trails_trail, trails_lineFeed_iff hb]
    · subst hb
      constructor
      · rintro ⟨l, r, hcr, hl, ht⟩
        cases l with
        | nil =>
          obtain ⟨-, rfl⟩ := List.cons.inj hl
          exact ⟨r, rfl, ht⟩
        | cons c l =>
          obtain ⟨rfl, -⟩ := List.cons.inj hl
          exact absurd List.mem_cons_self hcr
      · rintro ⟨r, rfl, ht⟩
        exact ⟨[], r, List.not_mem_nil, rfl, ht⟩
    · intro h
      obtain ⟨r, -, ht⟩ := (trails_lineFeed_iff hb).mp h
      have := ht.length_le
      rw [List.length_append, List.length_reverse] at this
      omega
  · rw [if_neg hb, trails_trail d t length_of_line, trails_line_iff]
    constructor
    · rintro ⟨l, r, hcr, hl, ht⟩
      cases l with
      | nil => exact absurd (List.cons.inj hl).1 hb
      | cons c l =>
        obtain ⟨rfl, rfl⟩ := List.cons.inj hl
        exact ⟨l, r, fun h => hcr (List.mem_cons_of_mem b h), rfl, ht⟩
    · rintro ⟨l, r, hcr, rfl, ht⟩
      refine ⟨b :: l, r, ?_, rfl, ht⟩
      rw [List.mem_cons, not_or]
      exact ⟨Ne.symm hb, hcr⟩

theorem Trailers.lt_maxFields (h : Trailers before n bs) : n < Head.maxFields := by
  induction h with
  | done _ hn _ => exact hn
  | line _ _ _ ih => exact Nat.lt_of_succ_lt ih

theorem trails_lineFeed_step (d : Draft) (t : Trailer) :
    (State.lineFeed t).Trails (b :: bs) ↔
      (Draft.step { d with state := .lineFeed t } b).Trails bs := by
  have hs : (State.lineStart ⟨b :: t.text, t.lines + 1⟩).Trails bs ↔
      Trailers (t.text.reverse ++ [b]) (t.lines + 1) bs := by
    simp only [State.Trails, List.reverse_cons]
  have htrail (ht : Trailers (t.text.reverse ++ [b]) (t.lines + 1) bs) :
      t.text.length < maxExtra := by
    have := ht.length_le
    rw [List.length_append, List.length_reverse, List.length_singleton] at this
    omega
  simp only [Draft.step]
  by_cases hb : b = lf
  · rw [if_pos hb]
    by_cases hn : t.lines < Head.maxFields
    · rw [if_pos hn]
      let d' : Draft := { d with state := .lineFeed t }
      refine .trans ?_ (trails_trail d' ⟨t.text, t.lines + 1⟩ fun h => htrail (hs.mp h)).symm
      rw [hs, hb]
      simp [State.Trails]
    · rw [if_neg hn]
      refine iff_of_false ?_ id
      rintro ⟨r, -, ht⟩
      exact hn (Nat.lt_of_succ_lt ht.lt_maxFields)
  · rw [if_neg hb]
    refine iff_of_false ?_ id
    rintro ⟨r, hr, -⟩
    exact hb (List.cons.inj hr).1

theorem trails_endFeed_step (d : Draft) (t : Trailer) :
    (State.endFeed t).Trails (b :: bs) ↔
      (Draft.step { d with state := .endFeed t } b).Trails bs := by
  simp only [Draft.step]
  by_cases hb : b = lf
  · subst hb
    rw [if_pos rfl]
    have hlen : (t.text.reverse ++ [lf]).length ≤ maxExtra ↔ t.text.length < maxExtra := by
      rw [List.length_append, List.length_reverse]
      exact Iff.rfl
    by_cases hl : t.text.length < maxExtra
    · rw [if_pos hl]
      have hfinish := Trailer.finish_cases { t with text := lf :: t.text }
      rw [List.reverse_cons] at hfinish
      obtain ⟨hf, hn, hh⟩ | ⟨⟨e, hf⟩, hh⟩ := hfinish
      · rw [hf]
        exact iff_of_true ⟨bs, rfl, hlen.mpr hl, hn, hh⟩ trivial
      · rw [hf]
        refine iff_of_false ?_ id
        rintro ⟨r, -, -, hn, hfields⟩
        exact hh ⟨hn, hfields⟩
    · rw [if_neg hl]
      refine iff_of_false ?_ id
      rintro ⟨r, -, h, -⟩
      exact hl (hlen.mp h)
  · rw [if_neg hb]
    refine iff_of_false ?_ id
    rintro ⟨r, hr, -⟩
    exact hb (List.cons.inj hr).1

/-- After the last chunk, an octet in front of what may be read from the draft it leads to. -/
theorem trails_cons_iff {d : Draft} (hd : d.state.Trailing) :
    d.state.Trails (b :: bs) ↔ (d.step b).Trails bs := by
  obtain ⟨state, data, extensions⟩ := d
  cases state with
  | lineStart t => exact trails_lineStart_step ⟨.lineStart t, data, extensions⟩ t
  | line t => exact trails_line_step ⟨.line t, data, extensions⟩ t
  | lineFeed t => exact trails_lineFeed_step ⟨.lineFeed t, data, extensions⟩ t
  | endFeed t => exact trails_endFeed_step ⟨.endFeed t, data, extensions⟩ t
  | _ => exact hd.elim

theorem not_trails_nil (s : State) : ¬ s.Trails [] := by
  cases s with
  | lineStart t =>
    intro h
    generalize hbs : ([] : List UInt8) = bs at h
    cases h with
    | done => cases hbs
    | line hne => exact hne (List.append_eq_nil_iff.mp hbs.symm).1
  | line t =>
    rintro ⟨l, r, -, h, -⟩
    cases (List.append_eq_nil_iff.mp h.symm).2
  | lineFeed t =>
    rintro ⟨r, h, -⟩
    cases h
  | endFeed t =>
    rintro ⟨r, h, -⟩
    cases h
  | _ => exact id

theorem trail_eq_more {d : Draft} {state : Trailer → State}
    (h : d.trail t b state = .more e) :
    e = { d with state := state { t with text := b :: t.text } } := by
  rw [Draft.trail] at h
  split at h
  · exact (Step.more.inj h).symm
  · cases h

theorem Trailer.finish_ne_more (t : Trailer) : t.finish ≠ .more e := by
  obtain ⟨hf, -⟩ | ⟨⟨e, hf⟩, -⟩ := t.finish_cases
  · rw [hf]
    exact Step.noConfusion
  · rw [hf]
    exact Step.noConfusion

/-- After the last chunk nothing is added to the body. -/
theorem trailing_of_step {d : Draft} (hd : d.state.Trailing) (h : d.step b = .more e) :
    e.state.Trailing ∧ e.data = d.data := by
  obtain ⟨state, data, extensions⟩ := d
  cases state with
  | lineStart t =>
    obtain rfl := trail_eq_more h
    refine ⟨?_, rfl⟩
    by_cases hb : b = cr
    · simp [hb, State.Trailing]
    · simp [hb, State.Trailing]
  | line t =>
    obtain rfl := trail_eq_more h
    refine ⟨?_, rfl⟩
    by_cases hb : b = cr
    · simp [hb, State.Trailing]
    · simp [hb, State.Trailing]
  | lineFeed t =>
    simp only [Draft.step] at h
    split at h
    · split at h
      · obtain rfl := trail_eq_more h
        exact ⟨trivial, rfl⟩
      · cases h
    · cases h
  | endFeed t =>
    simp only [Draft.step] at h
    split at h
    · split at h
      · exact absurd h (Trailer.finish_ne_more _)
      · cases h
    · cases h
  | _ => exact hd.elim

theorem readFrom_trailing_iff {d : Draft} (hd : d.state.Trailing) :
    readFrom d bs = .ok body ↔ body = d.data.reverse ∧ d.state.Trails bs := by
  induction bs generalizing d with
  | nil =>
    refine iff_of_false ?_ fun h => not_trails_nil d.state h.2
    rw [readFrom]
    split
    · exact nofun
    · exact nofun
  | cons b bs ih =>
    rw [readFrom, trails_cons_iff hd]
    split
    · next e he =>
      obtain ⟨htrailing, hdata⟩ := trailing_of_step hd he
      rw [ih htrailing, hdata, he]
      exact Iff.rfl
    · next he =>
      rw [he, Except.ok.injEq, eq_comm]
      exact (and_iff_left trivial).symm
    · next he =>
      rw [he]
      exact iff_of_false nofun And.right

/-- What the octets still are when the body is read to its end from this draft; they add `tail`
to it. -/
def Draft.Rest (d : Draft) (bs tail : List UInt8) : Prop :=
  let left := maxExtra - d.extensions
  match d.state with
  | .start => Chunked left bs tail
  | .size n =>
    ∃ digits blanks bs' : List UInt8, ∃ m left' r, bs = digits ++ (blanks ++ bs') ∧
      size? n digits = some m ∧ (digits ≠ [] → m < UInt64.size) ∧
        (∀ b ∈ blanks, isBlank b = true) ∧
        LineEnd left bs' left' r ∧ AfterLine left' m r tail
  | .sizeBlank n =>
    ∃ blanks bs' : List UInt8, ∃ left' r, bs = blanks ++ bs' ∧
      (∀ b ∈ blanks, isBlank b = true) ∧ LineEnd left bs' left' r ∧ AfterLine left' n r tail
  | .extension n =>
    ∃ e r : List UInt8, bs = e ++ cr :: lf :: r ∧ (∀ b ∈ e, b ≠ cr ∧ b ≠ lf) ∧
      e.length ≤ left ∧ AfterLine (left - e.length) n r tail
  | .sizeFeed n => ∃ r, bs = lf :: r ∧ AfterLine left n r tail
  | .data n =>
    ∃ data r body : List UInt8, data.length = n - 1 + 1 ∧ bs = data ++ cr :: lf :: r ∧
      tail = data ++ body ∧ Chunked left r body
  | .dataReturn => ∃ r, bs = cr :: lf :: r ∧ Chunked left r tail
  | .dataFeed => ∃ r, bs = lf :: r ∧ Chunked left r tail
  | s => tail = [] ∧ s.Trails bs

theorem lt_of_value? (h : Hex.value? b = some x) : x < 16 := by
  rw [Hex.value?] at h
  split at h
  · obtain rfl := Option.some.inj h
    omega
  · split at h
    · obtain rfl := Option.some.inj h
      omega
    · split at h
      · obtain rfl := Option.some.inj h
        omega
      · cases h

theorem le_of_size? (h : size? n digits = some m) : n ≤ m := by
  induction digits generalizing n with
  | nil => exact Nat.le_of_eq (Option.some.inj h)
  | cons b digits ih =>
    obtain ⟨x, _, h⟩ := Option.bind_eq_some_iff.mp h
    have := ih h
    omega

theorem afterLine_of_sized (d : Draft) (h : (sized d n).Rest bs tail) :
    AfterLine (maxExtra - d.extensions) n bs tail := by
  rw [sized] at h
  by_cases hn : n = 0
  · rw [if_pos hn] at h
    exact .inl ⟨hn, h⟩
  · rw [if_neg hn] at h
    obtain ⟨data, r, body, hlen, rfl, rfl, hc⟩ := h
    refine .inr ⟨data, r, body, ?_, ?_, rfl, rfl, hc⟩
    · rintro rfl
      cases hlen
    · omega

theorem rest_of_afterSize {d : Draft} (h : afterSize d n b error = .more e)
    (hr : e.Rest bs tail) :
    e.data = d.data ∧ ∃ blanks bs' : List UInt8, ∃ left' r, b :: bs = blanks ++ bs' ∧
      (∀ b ∈ blanks, isBlank b = true) ∧ LineEnd (maxExtra - d.extensions) bs' left' r ∧
        AfterLine left' n r tail := by
  rw [afterSize] at h
  split at h
  · next hb =>
    obtain rfl := Step.more.inj h
    obtain ⟨blanks, bs', left', r, rfl, hblanks, hl, ha⟩ := hr
    refine ⟨rfl, b :: blanks, bs', left', r, rfl, ?_, hl, ha⟩
    intro x hx
    obtain rfl | hx := List.mem_cons.mp hx
    · exact hb
    · exact hblanks x hx
  · split at h
    · next hb =>
      obtain rfl := Step.more.inj h
      subst hb
      obtain ⟨x, r, rfl, hx, hlen, ha⟩ := hr
      exact ⟨rfl, [], _, _, r, rfl, by simp, .inr ⟨x, rfl, hx, hlen, rfl⟩, ha⟩
    · split at h
      · next hb =>
        obtain rfl := Step.more.inj h
        subst hb
        obtain ⟨r, rfl, ha⟩ := hr
        exact ⟨rfl, [], _, _, r, rfl, by simp, .inl ⟨rfl, rfl⟩, ha⟩
      · cases h

section Rest
variable {data : List UInt8} {extensions : Nat}

theorem rest_of_firstDigit (hx : Hex.value? b.toNat = some x)
    (hr : Draft.Rest ⟨.size x, data, extensions⟩ bs tail) :
    Draft.Rest ⟨.start, data, extensions⟩ (b :: bs) tail := by
  obtain ⟨digits, blanks, bs', m, left', r, rfl, hd, hlt, hb, hl, ha⟩ := hr
  apply chunked_of_afterLine ?_ ha
  refine ⟨b :: digits, blanks, bs', rfl, List.cons_ne_nil b digits, ?_, ?_, hb, hl⟩
  · rw [size?, hx]
    simpa using hd
  · cases digits with
    | nil =>
      obtain rfl := Option.some.inj hd
      exact Nat.lt_trans (lt_of_value? hx) (by decide)
    | cons c digits => exact hlt (List.cons_ne_nil c digits)

theorem rest_of_digit (hx : Hex.value? b.toNat = some x) (hn : n * 16 + x < UInt64.size)
    (hr : Draft.Rest ⟨.size (n * 16 + x), data, extensions⟩ bs tail) :
    Draft.Rest ⟨.size n, data, extensions⟩ (b :: bs) tail := by
  obtain ⟨digits, blanks, bs', m, left', r, rfl, hd, hlt, hb, hl, ha⟩ := hr
  refine ⟨b :: digits, blanks, bs', m, left', r, rfl, ?_, ?_, hb, hl, ha⟩
  · rw [size?, hx]
    exact hd
  · intro _
    cases digits with
    | nil =>
      obtain rfl := Option.some.inj hd
      exact hn
    | cons c digits => exact hlt (List.cons_ne_nil c digits)

theorem rest_of_extension (hb : b ≠ cr ∧ b ≠ lf) (hlt : extensions < maxExtra)
    (hr : Draft.Rest ⟨.extension n, data, extensions + 1⟩ bs tail) :
    Draft.Rest ⟨.extension n, data, extensions⟩ (b :: bs) tail := by
  obtain ⟨e, r, rfl, he, hlen, ha⟩ := hr
  dsimp only at hlen ha
  have hleft : maxExtra - (extensions + 1) - e.length =
    maxExtra - extensions - (b :: e).length := by
    rw [List.length_cons]
    omega
  rw [hleft] at ha
  refine ⟨b :: e, r, rfl, List.forall_mem_cons.mpr ⟨hb, he⟩, ?_, ha⟩
  rw [List.length_cons]
  dsimp only
  omega

theorem rest_of_data
    (hr : Draft.Rest ⟨if n ≤ 1 then .dataReturn else .data (n - 1), b :: data, extensions⟩
      bs tail) :
    Draft.Rest ⟨.data n, data, extensions⟩ (b :: bs) (b :: tail) := by
  by_cases hn : n ≤ 1
  · rw [if_pos hn] at hr
    obtain ⟨r, rfl, hc⟩ := hr
    have hlen : [b].length = n - 1 + 1 := by
      rw [List.length_singleton]
      omega
    exact ⟨[b], r, tail, hlen, rfl, rfl, hc⟩
  · rw [if_neg hn] at hr
    obtain ⟨data', r, body, hlen, rfl, rfl, hc⟩ := hr
    have hlen' : (b :: data').length = n - 1 + 1 := by
      rw [List.length_cons, hlen]
      omega
    exact ⟨b :: data', r, body, hlen', rfl, rfl, hc⟩

end Rest

/-- An octet in front of what may be read from the draft it leads to. -/
theorem rest_of_step {d e : Draft} (hd : ¬ d.state.Trailing) (h : d.step b = .more e)
    (hr : e.Rest bs tail) :
    ∃ read : List UInt8, e.data = read.reverse ++ d.data ∧ d.Rest (b :: bs) (read ++ tail) := by
  obtain ⟨state, data, extensions⟩ := d
  cases state with
  | start =>
    simp only [Draft.step] at h
    split at h
    · next x hx =>
      obtain rfl := Step.more.inj h
      exact ⟨[], rfl, rest_of_firstDigit hx hr⟩
    · cases h
  | size n =>
    simp only [Draft.step] at h
    split at h
    · next x hx =>
      split at h
      · next hlt =>
        obtain rfl := Step.more.inj h
        exact ⟨[], rfl, rest_of_digit hx hlt hr⟩
      · cases h
    · obtain ⟨he, blanks, bs', left', r, hbs, hb, hl, ha⟩ := rest_of_afterSize h hr
      exact ⟨[], he, [], blanks, bs', n, left', r, hbs, rfl, fun h => absurd rfl h, hb, hl, ha⟩
  | sizeBlank n => exact ⟨[], rest_of_afterSize h hr⟩
  | extension n =>
    simp only [Draft.step] at h
    split at h
    · next hb =>
      obtain rfl := Step.more.inj h
      subst hb
      obtain ⟨r, rfl, ha⟩ := hr
      exact ⟨[], rfl, [], r, rfl, List.forall_mem_nil _, Nat.zero_le _, ha⟩
    · next hcr =>
      split at h
      · cases h
      · next hlf =>
        split at h
        · next hlt =>
          obtain rfl := Step.more.inj h
          exact ⟨[], rfl, rest_of_extension ⟨hcr, hlf⟩ hlt hr⟩
        · cases h
  | sizeFeed n =>
    simp only [Draft.step] at h
    split at h
    · next hb =>
      obtain rfl := Step.more.inj h
      subst hb
      have hd : (sized ⟨.sizeFeed n, data, extensions⟩ n).data = data := rfl
      exact ⟨[], hd, bs, rfl, afterLine_of_sized _ hr⟩
    · cases h
  | data n =>
    simp only [Draft.step] at h
    obtain rfl := Step.more.inj h
    exact ⟨[b], rfl, rest_of_data hr⟩
  | dataReturn =>
    simp only [Draft.step] at h
    split at h
    · next hb =>
      obtain rfl := Step.more.inj h
      subst hb
      obtain ⟨r, rfl, hc⟩ := hr
      exact ⟨[], rfl, r, rfl, hc⟩
    · cases h
  | dataFeed =>
    simp only [Draft.step] at h
    split at h
    · next hb =>
      obtain rfl := Step.more.inj h
      subst hb
      exact ⟨[], rfl, bs, rfl, hr⟩
    · cases h
  | _ => exact (hd trivial).elim

theorem step_ne_done {d : Draft} (hd : ¬ d.state.Trailing) : d.step b ≠ .done := by
  obtain ⟨state, data, extensions⟩ := d
  intro h
  cases state with
  | lineStart t => exact hd trivial
  | line t => exact hd trivial
  | lineFeed t => exact hd trivial
  | endFeed t => exact hd trivial
  | _ =>
    simp only [Draft.step, afterSize] at h
    repeat' split at h
    all_goals exact absurd h (by simp)

theorem rest_of_trailing {d : Draft} (hd : d.state.Trailing) (h : d.state.Trails bs) :
    d.Rest bs [] := by
  obtain ⟨state, data, extensions⟩ := d
  cases state with
  | lineStart t => exact ⟨rfl, h⟩
  | line t => exact ⟨rfl, h⟩
  | lineFeed t => exact ⟨rfl, h⟩
  | endFeed t => exact ⟨rfl, h⟩
  | _ => exact hd.elim

/-- What is read to its end from a draft is as the draft describes it. -/
theorem exists_rest_of_readFrom {d : Draft} (h : readFrom d bs = .ok body) :
    ∃ tail, body = d.data.reverse ++ tail ∧ d.Rest bs tail := by
  induction bs generalizing d with
  | nil =>
    rw [readFrom] at h
    split at h
    · cases h
    · cases h
  | cons b bs ih =>
    by_cases hd : d.state.Trailing
    · obtain ⟨rfl, ht⟩ := (readFrom_trailing_iff hd).mp h
      exact ⟨[], (List.append_nil _).symm, rest_of_trailing hd ht⟩
    · rw [readFrom] at h
      split at h
      · next e he =>
        obtain ⟨tail, rfl, hr⟩ := ih h
        obtain ⟨read, hdata, hr⟩ := rest_of_step hd he hr
        refine ⟨read ++ tail, ?_, hr⟩
        rw [hdata, List.reverse_append, List.reverse_reverse, List.append_assoc]
      · next he => exact absurd he (step_ne_done hd)
      · cases h

theorem readFrom_cons {d e : Draft} (h : d.step b = .more e) (bs : List UInt8) :
    readFrom d (b :: bs) = readFrom e bs := by
  rw [readFrom, h]

theorem readFrom_digits (d : Draft) (h : size? n digits = some m)
    (hlt : digits ≠ [] → m < UInt64.size) (r : List UInt8) :
    readFrom { d with state := .size n } (digits ++ r) =
      readFrom { d with state := .size m } r := by
  induction digits generalizing n with
  | nil =>
    obtain rfl := Option.some.inj h
    rfl
  | cons b digits ih =>
    obtain ⟨x, hx, h⟩ := Option.bind_eq_some_iff.mp h
    have hm := hlt (by simp)
    have hn := le_of_size? h
    have hs : Draft.step { d with state := .size n } b =
        .more { d with state := .size (n * 16 + x) } := by
      simp only [Draft.step, hx]
      rw [if_pos (by omega)]
    rw [List.cons_append, readFrom_cons hs, ih h fun _ => hm]

theorem readFrom_extension (d : Draft) (h : ∀ b ∈ e, b ≠ cr ∧ b ≠ lf)
    (hlen : e.length ≤ maxExtra - d.extensions) (r : List UInt8) :
    readFrom { d with state := .extension n } (e ++ r) =
      readFrom { d with state := .extension n, extensions := d.extensions + e.length } r := by
  induction e generalizing d with
  | nil => rfl
  | cons b e ih =>
    obtain ⟨hcr, hlf⟩ := h b List.mem_cons_self
    rw [List.length_cons] at hlen
    have hs : Draft.step { d with state := .extension n } b =
        .more { d with state := .extension n, extensions := d.extensions + 1 } := by
      simp only [Draft.step, if_neg hcr, if_neg hlf]
      rw [if_pos (by omega)]
    have ht := ih { d with extensions := d.extensions + 1 }
      (fun x hx => h x (List.mem_cons_of_mem b hx)) (by dsimp only; omega)
    rw [List.cons_append, readFrom_cons hs]
    apply ht.trans
    rw [List.length_cons, Nat.add_assoc, Nat.add_comm 1]

theorem readFrom_lineEnd (d : Draft) (h : LineEnd (maxExtra - d.extensions) bs left r)
    (hs : ∀ b, (b = cr ∨ b = 0x3B) → d.step b = afterSize d n b error) :
    ∃ k, left = maxExtra - k ∧
      readFrom d bs = readFrom (sized { d with extensions := k } n) r := by
  have hfeed (d : Draft) : Draft.step { d with state := .sizeFeed n } lf =
    .more (sized d n) := rfl
  obtain ⟨rfl, rfl⟩ | ⟨e, rfl, he, hlen, rfl⟩ := h
  · refine ⟨d.extensions, rfl, ?_⟩
    have hcr : d.step cr = .more { d with state := .sizeFeed n } := (hs cr (.inl rfl)).trans rfl
    rw [readFrom_cons hcr, readFrom_cons (hfeed d)]
  · refine ⟨d.extensions + e.length, by omega, ?_⟩
    have hext : d.step 0x3B = .more { d with state := .extension n } :=
      (hs 0x3B (.inr rfl)).trans rfl
    have hcr (d : Draft) : Draft.step { d with state := .extension n } cr =
      .more { d with state := .sizeFeed n } := rfl
    rw [readFrom_cons hext, readFrom_extension d he hlen]
    let d' : Draft := { d with extensions := d.extensions + e.length }
    exact (readFrom_cons (hcr d') (lf :: r)).trans (readFrom_cons (hfeed d') r)

theorem readFrom_blanks (d : Draft) (h : ∀ b ∈ blanks, isBlank b = true) (r : List UInt8) :
    readFrom { d with state := .sizeBlank n } (blanks ++ r) =
      readFrom { d with state := .sizeBlank n } r := by
  induction blanks with
  | nil => rfl
  | cons b blanks ih =>
    have hs : Draft.step { d with state := .sizeBlank n } b =
        .more { d with state := .sizeBlank n } := if_pos (h b List.mem_cons_self)
    rw [List.cons_append, readFrom_cons hs, ih fun x hx => h x (List.mem_cons_of_mem b hx)]

theorem value?_of_isBlank (h : isBlank b = true) : Hex.value? b.toNat = none := by
  simp only [isBlank, Bool.or_eq_true, decide_eq_true_eq] at h
  obtain rfl | rfl := h
  · rfl
  · rfl

theorem readFrom_sizeLine (d : Draft) (hd : d.state = .start)
    (h : SizeLine (maxExtra - d.extensions) bs n left r) :
    ∃ k, left = maxExtra - k ∧
      readFrom d bs = readFrom (sized { d with extensions := k } n) r := by
  obtain ⟨digits, blanks, bs', rfl, hne, hsize, hlt, hblanks, hl⟩ := h
  obtain ⟨state, data, extensions⟩ := d
  subst hd
  obtain ⟨b, digits, rfl⟩ := List.exists_cons_of_ne_nil hne
  obtain ⟨x, hx, hsize⟩ := Option.bind_eq_some_iff.mp hsize
  rw [Nat.zero_mul, Nat.zero_add] at hsize
  have hstart : Draft.step ⟨.start, data, extensions⟩ b =
      .more ⟨.size x, data, extensions⟩ := by
    simp only [Draft.step, hx]
  have hdigits := readFrom_digits ⟨.start, data, extensions⟩ hsize (fun _ => hlt)
    (blanks ++ bs')
  rw [List.cons_append, readFrom_cons hstart]
  cases blanks with
  | nil =>
    have hs : ∀ b, (b = cr ∨ b = 0x3B) → Draft.step ⟨.size n, data, extensions⟩ b =
        afterSize ⟨.size n, data, extensions⟩ n b .size := by
      rintro b (rfl | rfl)
      · rfl
      · rfl
    obtain ⟨k, hk, hr⟩ := readFrom_lineEnd ⟨.size n, data, extensions⟩ hl hs
    exact ⟨k, hk, hdigits.trans hr⟩
  | cons c blanks =>
    obtain ⟨hc, hblanks⟩ := List.forall_mem_cons.mp hblanks
    have hblank : Draft.step ⟨.size n, data, extensions⟩ c =
        .more ⟨.sizeBlank n, data, extensions⟩ := by
      simp only [Draft.step, value?_of_isBlank hc, afterSize, hc, if_true]
    have hs : ∀ b, (b = cr ∨ b = 0x3B) → Draft.step ⟨.sizeBlank n, data, extensions⟩ b =
        afterSize ⟨.sizeBlank n, data, extensions⟩ n b .sizeBlank := fun b _ => rfl
    obtain ⟨k, hk, hr⟩ := readFrom_lineEnd ⟨.sizeBlank n, data, extensions⟩ hl hs
    refine ⟨k, hk, hdigits.trans ?_⟩
    apply (readFrom_cons hblank (blanks ++ bs')).trans
    exact (readFrom_blanks ⟨.start, data, extensions⟩ hblanks bs').trans hr

theorem readFrom_data (d : Draft) (h : data ≠ []) (r : List UInt8) :
    readFrom { d with state := .data data.length } (data ++ r) =
      readFrom { d with state := .dataReturn, data := data.reverse ++ d.data } r := by
  induction data generalizing d with
  | nil => exact absurd rfl h
  | cons b data ih =>
    cases data with
    | nil => rfl
    | cons c data =>
      have hs : Draft.step { d with state := .data (b :: c :: data).length } b =
          .more { d with state := .data (c :: data).length, data := b :: d.data } := by
        simp [Draft.step]
      rw [List.cons_append, readFrom_cons hs]
      apply (ih { d with data := b :: d.data } (by simp)).trans
      simp

theorem readFrom_chunked (h : Chunked left bs body) :
    ∀ d : Draft, left = maxExtra - d.extensions → d.state = .start →
      readFrom d bs = .ok (d.data.reverse ++ body) := by
  induction h with
  | last hl ht =>
    intro d hleft hstart
    subst hleft
    obtain ⟨k, rfl, hr⟩ := readFrom_sizeLine d hstart hl
    have hd : (sized { d with extensions := k } 0).state.Trailing := trivial
    rw [hr, List.append_nil, readFrom_trailing_iff hd]
    exact ⟨rfl, ht⟩
  | @chunk left bs left' r body data hl hne _ ih =>
    intro d hleft hstart
    subst hleft
    obtain ⟨k, rfl, hr⟩ := readFrom_sizeLine d hstart hl
    have hsized : sized { d with extensions := k } data.length =
        { d with state := .data data.length, extensions := k } := by
      rw [sized, if_neg fun h => hne (List.length_eq_zero_iff.mp h)]
    have hdata := readFrom_data { d with extensions := k } hne (cr :: lf :: r)
    rw [hr, hsized, hdata]
    refine (ih { d with state := .start, extensions := k, data := data.reverse ++ d.data } rfl
      rfl).trans ?_
    simp

/-- The bodies that arrive whole in chunks are those of the description. -/
theorem read_eq_ok_iff : read bs = .ok body ↔ Chunked maxExtra bs body := by
  constructor
  · intro h
    obtain ⟨tail, rfl, hr⟩ := exists_rest_of_readFrom h
    exact hr
  · intro h
    exact readFrom_chunked h {} rfl rfl

end SchemaSnapshot.Http.Chunks
