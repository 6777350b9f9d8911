import SchemaSnapshot.Proofs.Except
import SchemaSnapshot.Proofs.Text.Split
import SchemaSnapshot.Url.Parser

namespace SchemaSnapshot.Url

open Text (cut split)

variable {scheme : Scheme} {kind : Scheme.Kind} {host : Host} {port? : Option Nat}
  {cs left : List Char}

theorem clean_append (hc : ∀ c, cs.getLast? = some c → ¬ c ≤ ' ')
    (hd : ∀ d ∈ ds, ¬ d ≤ ' ') : clean (cs ++ ds) = clean cs ++ ds := by
  have hf : ds.filter (fun c => c ≠ '\t' ∧ c ≠ '\n' ∧ c ≠ '\r') = ds := by
    apply List.filter_eq_self.2
    intro d h
    have hb := hd d h
    rw [decide_eq_true_eq]
    refine ⟨?_, ?_, ?_⟩
    all_goals
      rintro rfl
      exact hb (by decide)
  rw [clean, Text.trim_append (by simpa using hc) (by simpa using hd), List.filter_append, hf]
  rfl

theorem splitScheme?_append (cs t : List Char) :
    splitScheme? (cs ++ '/' :: t) = (splitScheme? cs).map fun p => (p.1, p.2 ++ '/' :: t) := by
  have hs : isSchemeChar '/' = false := rfl
  unfold splitScheme?
  rw [Text.dropWhile_append_stop cs t hs, Text.takeWhile_append_stop cs t hs]
  cases cs with
  | nil => rfl
  | cons c r =>
    rw [List.cons_append]
    cases (c :: r).dropWhile isSchemeChar with
    | nil => rfl
    | cons d ds =>
      by_cases hd : d = ':'
      · subst hd
        show (if c.isAlpha then _ else none) = Option.map _ (if c.isAlpha then _ else none)
        split <;> rfl
      · simp [hd]

namespace Path

theorem resolve_cons (done : List Segment) (s : Segment) (h : ss ≠ []) :
    resolve done (s :: ss) = resolve (push done s) ss := by
  cases ss with
  | nil => exact absurd rfl h
  | cons r ss => rfl

theorem resolve_append (done ps : List Segment) (h : qs ≠ []) :
    resolve done (ps ++ qs) = resolve (ps.foldl push done) qs := by
  induction ps generalizing done with
  | nil => rfl
  | cons p ps ih =>
    rw [List.cons_append, resolve_cons done p (List.append_ne_nil_of_right_ne_nil ps h), ih]
    rfl

theorem pushLast_eq (done : List Segment) (s : Segment) :
    pushLast done s = push done s ∨ pushLast done s = push done s ++ [[]] := by
  unfold pushLast push
  split
  · exact .inr rfl
  · split
    · exact .inr rfl
    · exact .inl rfl

/-- Where more segments follow, a path is the same but for an empty segment at its end. -/
theorem resolve_eq (done : List Segment) (h : ps ≠ []) :
    resolve done ps = ps.foldl push done ∨ resolve done ps = ps.foldl push done ++ [[]] := by
  obtain ⟨qs, s, rfl⟩ := (List.eq_nil_or_concat' ps).resolve_left h
  rw [resolve_append done qs (List.cons_ne_nil s []), List.foldl_append]
  exact pushLast_eq _ s

theorem chars_append (ss ts : List Segment) :
    (rooted (ss ++ ts)).chars = (rooted ss).chars ++ (rooted ts).chars :=
  List.flatMap_append

end Path

theorem pieces_ne_nil (kind : Scheme.Kind) (cs : List Char) : pieces kind cs ≠ [] := by
  cases cs with
  | nil => exact List.cons_ne_nil _ _
  | cons c r => exact Text.split_ne_nil _ _

theorem pieces_append (h : cs ≠ []) (t : List Char) :
    pieces kind (cs ++ '/' :: t) = pieces kind cs ++ split (isSlash kind) t := by
  cases cs with
  | nil => exact absurd rfl h
  | cons c r =>
    have hs : isSlash kind '/' = true := rfl
    simp only [pieces, List.cons_append]
    split
    · exact Text.split_append hs r t
    · exact Text.split_append hs (c :: r) t

/-- A path goes on after its segments, the last of which is left out where it is empty. -/
theorem readPath_append (hk : kind ≠ .other) (cs t : List Char) :
    ∃ ss, readPath kind (cs ++ '/' :: t) = .rooted (Path.resolve ss (split (isSlash kind) t)) ∧
      (readPath kind cs = .rooted ss ∨ readPath kind cs = .rooted (ss ++ [[]])) := by
  have hr (ds : List Char) : readPath kind ds = .rooted (Path.resolve [] (pieces kind ds)) :=
    if_neg fun h => hk h.2
  by_cases hc : cs = []
  · subst hc
    exact ⟨[], hr _, .inr (hr [])⟩
  · refine ⟨(pieces kind cs).foldl Path.push [], ?_, ?_⟩
    · rw [hr, pieces_append hc, Path.resolve_append _ _ (Text.split_ne_nil _ t)]
    · rw [hr]
      exact (Path.resolve_eq [] (pieces_ne_nil kind cs)).imp (congrArg _) (congrArg _)

theorem splitUserinfo_suffix (cs : List Char) : (splitUserinfo cs).2 <:+ cs := by
  have ht : (cs.reverse.takeWhile (· ≠ '@')).reverse <:+ cs :=
    List.reverse_prefix.1 (by simpa using List.takeWhile_prefix _)
  unfold splitUserinfo
  dsimp only
  split
  · exact ht
  · exact List.suffix_refl cs

theorem splitHost_suffix (inBrackets : Bool) (cs : List Char) :
    (splitHost inBrackets cs).2 <:+ cs := by
  induction cs generalizing inBrackets with
  | nil => exact List.suffix_refl []
  | cons c r ih =>
    unfold splitHost
    split
    · exact List.suffix_refl _
    · exact (ih _).trans (List.suffix_cons c r)

theorem readPort_suffix (h : readPort scheme cs = .ok (port?, left)) : left <:+ cs := by
  have hs : (cut (fun c => !c.isDigit) cs).2 <:+ cs := List.dropWhile_suffix _
  have hl : left = (cut (fun c => !c.isDigit) cs).2 := by
    unfold readPort at h
    dsimp only at h
    split at h
    · split_ifs at h <;> simp_all
    · split_ifs at h <;> simp_all
    · cases h
  exact hl ▸ hs

theorem readHostAndPort_suffix (hk : scheme.kind = .special)
    (h : readHostAndPort scheme cs = .ok (host, port?, left)) : left <:+ cs := by
  have hs := splitHost_suffix false cs
  unfold readHostAndPort at h
  generalize splitHost false cs = parts at h hs
  obtain ⟨name, rest⟩ := parts
  simp only [hk, if_true] at h
  split at h
  · cases h
  obtain ⟨a, _, h⟩ := bind_eq_ok h
  cases rest with
  | nil =>
    cases h
    exact List.nil_suffix
  | cons c r =>
    obtain ⟨⟨n?, left⟩, hp, h⟩ := bind_eq_ok h
    cases h
    exact (readPort_suffix hp).trans ((List.suffix_cons c r).trans hs)

theorem readAuthority_suffix (hk : scheme.kind = .special)
    (h : readAuthority scheme cs more = .ok (a, left)) : left <:+ cs := by
  have hs := splitUserinfo_suffix cs
  unfold readAuthority at h
  dsimp only at h
  split at h
  · cases h
  obtain ⟨⟨host, port?, left⟩, hr, h⟩ := bind_eq_ok h
  dsimp only at h
  split at h
  · cases h
  · cases h
    exact (readHostAndPort_suffix hk hr).trans hs

theorem readHostAndPort_nil (hk : scheme.kind = .special) :
    readHostAndPort scheme [] = .error .emptyHost := by
  simp only [readHostAndPort, splitHost, hk]
  rfl

theorem readAuthority_more (hk : scheme.kind = .special) (cs : List Char) (more : Bool) :
    readAuthority scheme cs more = readAuthority scheme cs false := by
  unfold readAuthority
  dsimp only
  by_cases h : (splitUserinfo cs).1 = some [] ∧ (splitUserinfo cs).2 = [] ∧ more = true
  · rw [if_pos h, h.2.1, readHostAndPort_nil hk]
    simp only [Bool.false_eq_true, and_false, if_false]
    rfl
  · rw [if_neg h]
    simp only [Bool.false_eq_true, and_false, if_false]

theorem readAfterSlashes_nil (hk : scheme.kind = .special) :
    readAfterSlashes scheme [] = .error .emptyHost := by
  have ha : readAuthority scheme [] false = .error .emptyHost := by
    unfold readAuthority
    show (readHostAndPort scheme [] >>= _) = _
    rw [readHostAndPort_nil hk]
    rfl
  show (readAuthority scheme [] false >>= _) = _
  rw [ha]
  rfl

theorem finish_of_unmarked (h : ∀ c ∈ cs, endsPath c = false) (a : Option Authority)
    (read : List Char → Path) : finish scheme a read cs = ⟨scheme, a, read cs, none, none⟩ := by
  rw [finish, Text.cut_of_forall h]
  rfl

theorem readAfterSlashes_append (hk : scheme.kind = .special)
    (hc : ∀ c ∈ cs, endsPath c = false) (ht : ∀ c ∈ t, endsPath c = false) :
    (∃ e, readAfterSlashes scheme cs = .error e ∧
      readAfterSlashes scheme (cs ++ '/' :: t) = .error e) ∨
    ∃ a path,
      readAfterSlashes scheme cs = .ok ⟨scheme, some a, readPath .special path, none, none⟩ ∧
      readAfterSlashes scheme (cs ++ '/' :: t) =
        .ok ⟨scheme, some a, readPath .special (path ++ '/' :: t), none, none⟩ := by
  have hs : endsAuthority scheme.kind '/' = true := rfl
  unfold readAfterSlashes
  rw [Text.cut_append_stop cs t hs]
  rcases hp : cut (endsAuthority scheme.kind) cs with ⟨authority, rest⟩
  replace hp := Text.append_of_cut hp
  dsimp only
  -- only the longer text always has something after its authority
  simp only [readAuthority_more hk]
  cases ha : readAuthority scheme authority false with
  | error e => exact .inl ⟨e, rfl, rfl⟩
  | ok x =>
    obtain ⟨a, left⟩ := x
    -- what the authority leaves over is part of the text, so the path ends where the text does
    have hl : ∀ c ∈ left ++ rest, endsPath c = false := by
      intro c h
      apply hc
      rw [← hp]
      exact (List.mem_append.1 h).elim
        (fun h => List.mem_append_left _ ((readAuthority_suffix hk ha).mem h))
        (fun h => List.mem_append_right _ h)
    have hlt : ∀ c ∈ left ++ rest ++ '/' :: t, endsPath c = false := by
      intro c h
      rw [List.mem_append, List.mem_cons] at h
      obtain h | rfl | h := h
      · exact hl c h
      · rfl
      · exact ht c h
    refine .inr ⟨a, left ++ rest, ?_, ?_⟩
    · show Except.ok (finish _ _ _ _) = _
      rw [finish_of_unmarked hl, hk]
    · show Except.ok (finish _ _ _ _) = _
      rw [← List.append_assoc, finish_of_unmarked hlt, hk]

theorem mem_of_mem_clean (h : c ∈ clean cs) : c ∈ cs := by
  have ht := (List.mem_filter.1 h).1
  rw [Text.trim, List.mem_reverse] at ht
  exact (List.dropWhile_suffix _).mem (List.mem_reverse.1 ((List.dropWhile_suffix _).mem ht))

/-- What splits off a scheme is its name, whatever case it is written in, and a colon. -/
theorem exists_name (h : splitScheme? cs = some (scheme, rest)) :
    ∃ name, cs = name ++ ':' :: rest ∧ name.map Char.toLower = scheme := by
  have hp : cs.takeWhile isSchemeChar ++ cs.dropWhile isSchemeChar = cs :=
    List.takeWhile_append_dropWhile
  unfold splitScheme? at h
  split at h
  · next c r ds hd =>
    split at h
    · cases h
      exact ⟨_, by rw [← hd, hp], rfl⟩
    · cases h
  · cases h

theorem isHttp_iff :
    scheme.isHttp = true ↔ scheme = "http".toList ∨ scheme = "https".toList := by
  rw [Scheme.isHttp, Bool.or_eq_true, decide_eq_true_eq, decide_eq_true_eq]

theorem kind_of_isHttp (h : scheme.isHttp = true) : scheme.kind = .special := by
  obtain rfl | rfl := isHttp_iff.mp h
  · rfl
  · rfl

theorem readAfterSlashes_scheme (h : readAfterSlashes scheme cs = .ok u) :
    u.scheme = scheme := by
  unfold readAfterSlashes at h
  dsimp only at h
  obtain ⟨⟨a, left⟩, _, h⟩ := bind_eq_ok h
  cases h
  rfl

theorem readFile_scheme (h : readFile scheme cs = .ok u) : u.scheme = scheme := by
  unfold readFile at h
  split at h
  · next c d r =>
    split at h
    · dsimp only at h
      split at h
      · cases h
        rfl
      · obtain ⟨host, _, h⟩ := bind_eq_ok h
        cases h
        rfl
    · cases h
      rfl
  · cases h
    rfl

theorem readOther_scheme (h : readOther scheme cs = .ok u) : u.scheme = scheme := by
  unfold readOther at h
  split at h
  · exact readAfterSlashes_scheme h
  · cases h
    rfl
  · cases h
    rfl

theorem readAfterScheme_scheme (h : readAfterScheme scheme cs = .ok u) : u.scheme = scheme := by
  unfold readAfterScheme at h
  split at h
  · exact readAfterSlashes_scheme h
  · exact readFile_scheme h
  · exact readOther_scheme h

/-- A URL to ask over the network is read from what follows the slashes after its scheme. -/
theorem exists_of_parse (h : parse cs = .ok u) (hu : u.isHttp = true) :
    ∃ rest, splitScheme? (clean cs) = some (u.scheme, rest) ∧
      readAfterSlashes u.scheme (rest.dropWhile isAnySlash) = .ok u := by
  unfold parse at h
  split at h
  · next scheme rest hs =>
    obtain rfl := readAfterScheme_scheme h
    refine ⟨rest, hs, ?_⟩
    rwa [readAfterScheme, kind_of_isHttp hu] at h
  · cases h

theorem parse_of_special (h : splitScheme? (clean cs) = some (scheme, rest))
    (hk : scheme.kind = .special) :
    parse cs = readAfterSlashes scheme (rest.dropWhile isAnySlash) := by
  rw [parse, h]
  dsimp only
  rw [readAfterScheme, hk]

section

variable {e t : List Char} (hm : ∀ c ∈ e, endsPath c = false)
  (hl : ∀ c, e.getLast? = some c → ¬ c ≤ ' ')
  (ht : ∀ c ∈ t, ¬ c ≤ ' ' ∧ endsPath c = false)

include hl ht

theorem splitScheme?_clean_append :
    splitScheme? (clean (e ++ '/' :: t)) =
      (splitScheme? (clean e)).map fun p => (p.1, p.2 ++ '/' :: t) := by
  have hd : ∀ d ∈ '/' :: t, ¬ d ≤ ' ' :=
    List.forall_mem_cons.2 ⟨by decide, fun d h => (ht d h).1⟩
  rw [clean_append hl hd, splitScheme?_append]

include hm

/-- Behind the slashes after a scheme, the text that goes on is read as far as the text itself.
-/
theorem parse_append (hs : splitScheme? (clean e) = some (scheme, rest))
    (hk : scheme.kind = .special) (hn : rest.dropWhile isAnySlash ≠ []) :
    (∃ err, parse e = .error err ∧ parse (e ++ '/' :: t) = .error err) ∨
    ∃ a path,
      parse e = .ok ⟨scheme, some a, readPath .special path, none, none⟩ ∧
      parse (e ++ '/' :: t) =
        .ok ⟨scheme, some a, readPath .special (path ++ '/' :: t), none, none⟩ := by
  have hst : splitScheme? (clean (e ++ '/' :: t)) = some (scheme, rest ++ '/' :: t) := by
    rw [splitScheme?_clean_append hl ht, hs]
    rfl
  have hd : (rest ++ '/' :: t).dropWhile isAnySlash =
      rest.dropWhile isAnySlash ++ '/' :: t := by
    rw [List.dropWhile_append, if_neg (by simpa using hn)]
  have hmr : ∀ c ∈ rest.dropWhile isAnySlash, endsPath c = false := by
    obtain ⟨name, hc, -⟩ := exists_name hs
    intro c h
    apply hm c (mem_of_mem_clean _)
    rw [hc]
    exact List.mem_append_right _ (List.mem_cons_of_mem _ ((List.dropWhile_suffix _).mem h))
  rw [parse_of_special hs hk, parse_of_special hst hk, hd]
  exact readAfterSlashes_append hk hmr fun c h => (ht c h).2

/-- The text that goes on is the same URL, but for the path. -/
theorem parse_append_of_ok (h : parse e = .ok u) (hu : u.isHttp = true) :
    ∃ a ss, u.authority? = some a ∧ u.query? = none ∧ u.fragment? = none ∧
      (u.path = .rooted ss ∨ u.path = .rooted (ss ++ [[]])) ∧
      parse (e ++ '/' :: t) =
        .ok { u with path := .rooted (Path.resolve ss (split (isSlash .special) t)) } := by
  obtain ⟨rest, hs, hr⟩ := exists_of_parse h hu
  have hk := kind_of_isHttp hu
  have hn : rest.dropWhile isAnySlash ≠ [] := by
    intro hn
    rw [hn, readAfterSlashes_nil hk] at hr
    cases hr
  obtain ⟨err, he, -⟩ | ⟨a, path, he, hv⟩ := parse_append hm hl ht hs hk hn
  · rw [h] at he
    cases he
  · obtain ⟨ss, hp, hq⟩ := readPath_append (show Scheme.Kind.special ≠ .other by decide) path t
    obtain ⟨scheme, authority?, segments, query?, fragment?⟩ := u
    cases h.symm.trans he
    refine ⟨a, ss, rfl, rfl, rfl, hq, ?_⟩
    rw [hv, hp]

/-- Where only the longer text is a URL, nothing but slashes follows the scheme, and what goes
on is read as an authority. -/
theorem parse_append_of_error (h : parse e = .error err)
    (hv : parse (e ++ '/' :: t) = .ok v) (hh : v.isHttp = true) :
    ∃ name slashes, clean e = name ++ ':' :: slashes ∧ name.map Char.toLower = v.scheme ∧
      (∀ c ∈ slashes, isAnySlash c = true) ∧
      readAfterSlashes v.scheme (t.dropWhile isAnySlash) = .ok v := by
  obtain ⟨rest', hs', hr⟩ := exists_of_parse hv hh
  have hk := kind_of_isHttp hh
  rw [splitScheme?_clean_append hl ht, Option.map_eq_some_iff] at hs'
  obtain ⟨⟨scheme, rest⟩, hs, hp⟩ := hs'
  obtain ⟨rfl, rfl⟩ := Prod.mk.inj hp
  obtain ⟨name, hc, hname⟩ := exists_name hs
  have hn : rest.dropWhile isAnySlash = [] := by
    -- else the text that goes on is read as far as the text itself, and that is no URL
    by_contra hn
    obtain ⟨_, -, he⟩ | ⟨a, path, he, -⟩ := parse_append hm hl ht hs hk hn
    · rw [hv] at he
      cases he
    · rw [h] at he
      cases he
  refine ⟨name, rest, hc, hname, List.dropWhile_eq_nil_iff.1 hn, ?_⟩
  rwa [List.dropWhile_append, hn] at hr

end

end SchemaSnapshot.Url
