import SchemaSnapshot.Proofs.Url.Host
import SchemaSnapshot.Proofs.Url.Path

namespace SchemaSnapshot

open Text (cut)

/-- What stands before the path is encoded or read, and a port is not the usual one. -/
structure Authority.Settled (scheme : Scheme) (a : Authority) : Prop where
  username : ∀ c ∈ a.username, Percent.userinfo c = false
  password : ∀ p, a.password? = some p → p ≠ [] ∧ ∀ c ∈ p, Percent.userinfo c = false
  host : a.host.Settled
  port : ∀ p, a.port? = some p → p ≤ 65535 ∧ scheme.defaultPort? ≠ some p

namespace Url

variable {scheme : Scheme} {cs left : List Char} {a : Authority} {host : Host}

/-- A URL to ask over the network as it is known once it is read. -/
structure Settled (u : Url) : Prop where
  isHttp : u.isHttp = true
  authority : ∃ a, u.authority? = some a ∧ a.Settled u.scheme
  path : ∃ ss, u.path = .rooted ss ∧ ss ≠ [] ∧ ∀ s ∈ ss, s.Settled
  query : ∀ q, u.query? = some q → ∀ c ∈ q, Percent.specialQuery c = false
  fragment : ∀ f, u.fragment? = some f → ∀ c ∈ f, Percent.fragment c = false

theorem port_of_readPort (h : readPort scheme cs = .ok (port?, left)) :
    ∀ p, port? = some p → p ≤ 65535 ∧ scheme.defaultPort? ≠ some p := by
  rintro p rfl
  have hp {n : Nat} {rest : List Char} (digits : List Char)
      (h : (if 65535 < n then Except.error Error.invalidPort
        else if digits = [] ∨ scheme.defaultPort? = some n then .ok (none, rest)
        else .ok (some n, rest)) = .ok (some p, left)) :
      p ≤ 65535 ∧ scheme.defaultPort? ≠ some p := by
    split at h
    · cases h
    · next hle =>
      split at h
      · cases h
      · next hd =>
        cases h
        exact ⟨by omega, fun hs => hd (.inr hs)⟩
  unfold readPort at h
  dsimp only at h
  split at h
  · exact hp _ h
  · exact hp _ h
  · cases h

theorem settled_of_readHostAndPort (hk : scheme.kind = .special)
    (h : readHostAndPort scheme cs = .ok (host, port?, left)) :
    host.Settled ∧ ∀ p, port? = some p → p ≤ 65535 ∧ scheme.defaultPort? ≠ some p := by
  unfold readHostAndPort at h
  generalize splitHost false cs = parts at h
  obtain ⟨name, rest⟩ := parts
  simp only [hk, if_true] at h
  split at h
  · cases h
  obtain ⟨a, ha, h⟩ := bind_eq_ok h
  have hs := Host.settled_of_ofSpecial ha
  cases rest with
  | nil =>
    cases h
    exact ⟨hs, nofun⟩
  | cons c r =>
    obtain ⟨⟨n?, left⟩, hp, h⟩ := bind_eq_ok h
    cases h
    exact ⟨hs, port_of_readPort hp⟩

theorem settled_of_readUserinfo (h : readUserinfo cs = (username, password?)) :
    (∀ c ∈ username, Percent.userinfo c = false) ∧
      ∀ p, password? = some p → p ≠ [] ∧ ∀ c ∈ p, Percent.userinfo c = false := by
  have he {cs : List Char} : ∀ c ∈ Percent.encode Percent.userinfo cs,
    Percent.userinfo c = false :=
    fun _ => Percent.set_of_mem_encode Percent.sparesCodes_userinfo
  unfold readUserinfo at h
  dsimp only at h
  split at h
  · cases h
    refine ⟨he, ?_⟩
    rintro _ ⟨⟩
    exact ⟨mt Percent.encode_eq_nil (List.cons_ne_nil _ _), he⟩
  · cases h
    exact ⟨he, nofun⟩

theorem settled_of_readAuthority (hk : scheme.kind = .special)
    (h : readAuthority scheme cs more = .ok (a, left)) : a.Settled scheme := by
  unfold readAuthority at h
  dsimp only at h
  split at h
  · cases h
  obtain ⟨⟨host, port?, left⟩, hr, h⟩ := bind_eq_ok h
  dsimp only at h
  split at h
  · cases h
  · cases h
    obtain ⟨hh, hp⟩ := settled_of_readHostAndPort hk hr
    obtain ⟨hu, hw⟩ := settled_of_readUserinfo rfl
    exact ⟨hu, hw, hh, hp⟩

theorem settled_readTail (cs : List Char) :
    (∀ q, (readTail .special cs).1 = some q → ∀ c ∈ q, Percent.specialQuery c = false) ∧
      ∀ f, (readTail .special cs).2 = some f → ∀ c ∈ f, Percent.fragment c = false := by
  unfold readTail
  dsimp only
  constructor
  · intro q hq
    split at hq
    · cases hq
    · cases hq
      exact fun _ => Percent.set_of_mem_encode Percent.sparesCodes_specialQuery
  · intro f hf
    split at hf
    · cases hf
    · cases hf
      exact fun _ => Percent.set_of_mem_encode Percent.sparesCodes_fragment

theorem settled_of_parse (h : parse cs = .ok u) (hu : u.isHttp = true) : u.Settled := by
  obtain ⟨rest, -, hr⟩ := exists_of_parse h hu
  have hk := kind_of_isHttp hu
  unfold readAfterSlashes at hr
  dsimp only at hr
  obtain ⟨⟨a, left⟩, ha, hf⟩ := bind_eq_ok hr
  replace hf := Except.ok.inj hf
  rw [hk, finish, hk] at hf
  dsimp only at hf
  obtain ⟨ss, hp, hs⟩ := exists_readPath (cut endsPath (left ++ _)).1
  obtain ⟨hq, hfr⟩ := settled_readTail (cut endsPath (left ++ _)).2
  refine ⟨hu, ⟨a, (congrArg Url.authority? hf).symm, settled_of_readAuthority hk ha⟩,
    ⟨ss, (congrArg Url.path hf).symm.trans hp, hs⟩, ?_, ?_⟩
  · rw [← congrArg Url.query? hf]
    exact hq
  · rw [← congrArg Url.fragment? hf]
    exact hfr

theorem splitUserinfo_of_not_mem (h : '@' ∉ cs) : splitUserinfo cs = (none, cs) := by
  have ht : cs.reverse.takeWhile (· ≠ '@') = cs.reverse := by
    refine List.takeWhile_eq_self_iff.mpr fun c hc => ?_
    rw [decide_eq_true_eq]
    rintro rfl
    exact h (List.mem_reverse.mp hc)
  rw [splitUserinfo, ht, List.reverse_reverse]
  exact if_neg (Nat.lt_irrefl _)

theorem splitUserinfo_append (h : '@' ∉ cs) (us : List Char) :
    splitUserinfo (us ++ '@' :: cs) = (some us, cs) := by
  have ht : (us ++ '@' :: cs).reverse.takeWhile (· ≠ '@') = cs.reverse := by
    rw [List.reverse_append, List.reverse_cons, List.append_assoc, List.singleton_append,
      Text.takeWhile_append_stop _ _ (by decide), List.takeWhile_eq_self_iff]
    intro c hc
    rw [decide_eq_true_eq]
    rintro rfl
    exact h (List.mem_reverse.mp hc)
  have hl : (us ++ '@' :: cs).length = us.length + 1 + cs.length := by
    rw [List.length_append, List.length_cons]
    omega
  rw [splitUserinfo, ht, List.reverse_reverse, hl,
    if_pos (by omega), Nat.add_sub_cancel, Nat.add_sub_cancel, List.take_left]

section

variable {us ps : List Char} (hu : ∀ c ∈ us, Percent.userinfo c = false)
include hu

theorem cut_userinfo (hr : r = [] ∨ ∃ t, r = ':' :: t) : cut (· = ':') (us ++ r) = (us, r) := by
  refine Text.cut_append (fun c hc => ?_) ?_
  · rw [decide_eq_false_iff_not]
    rintro rfl
    exact absurd (hu ':' hc) (by decide)
  · obtain rfl | ⟨t, rfl⟩ := hr
    · exact .inl rfl
    · exact .inr ⟨':', t, rfl, by decide⟩

theorem readUserinfo_name : readUserinfo us = (us, none) := by
  have hc := cut_userinfo hu (.inl rfl)
  rw [List.append_nil] at hc
  rw [readUserinfo, hc]
  dsimp only
  rw [Percent.encode_eq_self hu]

theorem readUserinfo_password (hn : ps ≠ []) (hp : ∀ c ∈ ps, Percent.userinfo c = false) :
    readUserinfo (us ++ ':' :: ps) = (us, some ps) := by
  obtain ⟨p, r, rfl⟩ := List.exists_cons_of_ne_nil hn
  rw [readUserinfo, cut_userinfo hu (.inr ⟨_, rfl⟩)]
  dsimp only
  rw [Percent.encode_eq_self hu, Percent.encode_eq_self hp]

end

theorem readPort_digits (h : p ≤ 65535 ∧ scheme.defaultPort? ≠ some p) :
    readPort scheme (Nat.toDigits 10 p) = .ok (some p, []) := by
  have hc : cut (fun c => !c.isDigit) (Nat.toDigits 10 p) = (Nat.toDigits 10 p, []) :=
    Text.cut_of_forall fun c hc => by simp [Ipv4.isDigit_of_mem hc]
  have hd := Ipv4.digits?_toDigits (show 1 < 10 by decide) (by decide) p
  have hn : ¬ (Nat.toDigits 10 p = [] ∨ scheme.defaultPort? = some p) :=
    not_or.mpr ⟨Nat.toDigits_ne_nil, h.2⟩
  rw [readPort, hc]
  dsimp only
  rw [hd]
  dsimp only
  rw [if_neg (Nat.not_lt.mpr h.1), if_neg hn]

end Url

namespace Authority.Settled

variable {scheme : Scheme} {a : Authority} (h : a.Settled scheme)
include h

theorem readHostAndPort (hk : scheme.kind = .special) :
    Url.readHostAndPort scheme a.hostChars = .ok (a.host, a.port?, []) := by
  have hs : Url.splitHost false a.hostChars = (a.host.chars, a.portChars) := by
    refine Url.splitHost_chars h.host ?_
    unfold portChars
    split
    · exact .inl rfl
    · exact .inr ⟨_, rfl⟩
  have hn : ¬ (a.host.chars = [] ∧ (scheme.kind = .special ∨ a.portChars ≠ [])) :=
    fun hc => h.host.chars_ne_nil hc.1
  rw [Url.readHostAndPort, hs]
  dsimp only
  rw [if_neg hn, if_pos hk, h.host.ofSpecial_chars]
  unfold portChars
  cases hp : a.port? with
  | none => rfl
  | some p =>
    show (Url.readPort scheme (Nat.toDigits 10 p) >>= _) = _
    rw [Url.readPort_digits (h.port p hp)]
    rfl

theorem forall_mem_hostChars :
    ∀ c ∈ a.hostChars, IsVisible c ∧ c ∉ ['/', '\\', '?', '#', '@'] := by
  rw [hostChars, List.forall_mem_append]
  refine ⟨h.host.forall_mem, ?_⟩
  unfold portChars
  split
  · exact fun c hc => absurd hc List.not_mem_nil
  · refine List.forall_mem_cons.mpr ⟨by decide, fun c hc => ?_⟩
    exact Host.not_mark_of_not_forbidden
      (Host.not_forbidden_of_isAlphanum (by simp [Char.isAlphanum, Ipv4.isDigit_of_mem hc]))

theorem exists_userinfo :
    ∃ info?, Url.splitUserinfo a.chars = (info?, a.hostChars) ∧
      Url.readUserinfo (info?.getD []) = (a.username, a.password?) := by
  have hat : '@' ∉ a.hostChars := fun hm => (h.forall_mem_hostChars _ hm).2 (by decide)
  rw [chars, userinfoChars]
  cases hp : a.password? with
  | none =>
    cases hu : a.username with
    | nil => exact ⟨none, Url.splitUserinfo_of_not_mem hat, rfl⟩
    | cons c us =>
      refine ⟨some (c :: us), ?_, ?_⟩
      · rw [← Url.splitUserinfo_append hat]
        simp
      · exact Url.readUserinfo_name (hu ▸ h.username)
  | some p =>
    obtain ⟨hn, hc⟩ := h.password p hp
    refine ⟨some (a.username ++ ':' :: p), ?_, ?_⟩
    · rw [← Url.splitUserinfo_append hat]
      simp
    · exact Url.readUserinfo_password h.username hn hc

theorem forall_mem_chars : ∀ c ∈ a.chars, IsVisible c ∧ c ∉ ['/', '\\', '?', '#'] := by
  have hm {c : Char} {m : List Char} (h : IsVisible c ∧ c ∉ ['/', '\\', '?', '#'] ++ m) :
      IsVisible c ∧ c ∉ ['/', '\\', '?', '#'] :=
    ⟨h.1, fun hc => h.2 (List.mem_append_left m hc)⟩
  have hu : ∀ c ∈ a.username, IsVisible c ∧ c ∉ ['/', '\\', '?', '#'] :=
    fun c hc => hm (Percent.not_mark_of_not_userinfo (h.username c hc))
  have hat : ∀ c ∈ ['@'], IsVisible c ∧ c ∉ ['/', '\\', '?', '#'] :=
    List.forall_mem_singleton.mpr (by decide)
  rw [chars, List.forall_mem_append]
  refine ⟨?_, fun c hc => hm (h.forall_mem_hostChars c hc)⟩
  unfold userinfoChars
  split
  · exact fun c hc => absurd hc List.not_mem_nil
  · exact List.forall_mem_append.mpr ⟨hu, hat⟩
  · next p hp =>
    have hw : ∀ c ∈ p, IsVisible c ∧ c ∉ ['/', '\\', '?', '#'] :=
      fun c hc => hm (Percent.not_mark_of_not_userinfo ((h.password _ hp).2 c hc))
    rw [List.forall_mem_append, List.forall_mem_append, List.forall_mem_cons]
    exact ⟨⟨hu, by decide, hw⟩, hat⟩

theorem chars_ne_nil : a.chars ≠ [] :=
  List.append_ne_nil_of_right_ne_nil _ (List.append_ne_nil_of_left_ne_nil h.host.chars_ne_nil _)

theorem readAuthority (hk : scheme.kind = .special) (more : Bool) :
    Url.readAuthority scheme a.chars more = .ok (a, []) := by
  obtain ⟨info?, hs, hr⟩ := h.exists_userinfo
  have hn : a.hostChars ≠ [] := List.append_ne_nil_of_left_ne_nil h.host.chars_ne_nil _
  have he : a.host ≠ .empty := by
    intro he
    have hh := h.host
    rw [he] at hh
    exact hh
  rw [Url.readAuthority, hs]
  dsimp only
  rw [if_neg fun hc => hn hc.2.1, hr]
  dsimp only
  rw [h.readHostAndPort hk]
  exact if_neg fun hc => he hc.1

end Authority.Settled

namespace Url

/-- The query and the fragment with the marks that begin them. -/
def tailChars (u : Url) : List Char :=
  optional '?' u.query? ++ optional '#' u.fragment?

theorem forall_mem_optional {P : Char → Prop} {o : Option (List Char)} (hm : P mark)
    (h : ∀ cs, o = some cs → ∀ c ∈ cs, P c) : ∀ c ∈ optional mark o, P c := by
  cases o with
  | none => exact fun c hc => absurd hc List.not_mem_nil
  | some cs => exact List.forall_mem_cons.mpr ⟨hm, h cs rfl⟩

theorem optional_cases (mark : Char) (o : Option (List Char)) :
    optional mark o = [] ∨ ∃ r, optional mark o = mark :: r := by
  cases o with
  | none => exact .inl rfl
  | some cs => exact .inr ⟨cs, rfl⟩

namespace Settled

variable {u : Url} (h : u.Settled)
include h

theorem forall_mem_query :
    ∀ c ∈ optional '?' u.query?, IsVisible c ∧ c ≠ '#' :=
  forall_mem_optional (by decide) fun q hq c hc =>
    Percent.not_mark_of_not_specialQuery (h.query q hq c hc)

theorem readTail : Url.readTail .special u.tailChars = (u.query?, u.fragment?) := by
  have hc : cut (· = '#') u.tailChars = (optional '?' u.query?, optional '#' u.fragment?) := by
    refine Text.cut_append (fun c hc => decide_eq_false (h.forall_mem_query c hc).2) ?_
    obtain hf | ⟨r, hf⟩ := optional_cases '#' u.fragment?
    · exact .inl hf
    · exact .inr ⟨'#', r, hf, by decide⟩
  rw [Url.readTail, hc]
  refine Prod.ext ?_ ?_
  · cases hq : u.query? with
    | none => rfl
    | some q => exact congrArg some (Percent.encode_eq_self (h.query q hq))
  · cases hf : u.fragment? with
    | none => rfl
    | some f => exact congrArg some (Percent.encode_eq_self (h.fragment f hf))

theorem exists_parts :
    ∃ a ss, u.authority? = some a ∧ a.Settled u.scheme ∧ u.path = .rooted ss ∧ ss ≠ [] ∧
      (∀ s ∈ ss, s.Settled) ∧
      u.chars = u.scheme ++ ':' :: '/' :: '/' ::
        (a.chars ++ ((Path.rooted ss).chars ++ u.tailChars)) := by
  obtain ⟨a, ha, has⟩ := h.authority
  obtain ⟨ss, hp, hn, hs⟩ := h.path
  refine ⟨a, ss, ha, has, hp, hn, hs, ?_⟩
  rw [Url.chars, charsToQuery, charsToPath, authorityChars, ha, hp, tailChars]
  simp

theorem readAfterSlashes (ha : u.authority? = some a) (has : a.Settled u.scheme)
    (hp : u.path = .rooted ss) (hn : ss ≠ []) (hs : ∀ s ∈ ss, s.Settled) :
    Url.readAfterSlashes u.scheme (a.chars ++ ((Path.rooted ss).chars ++ u.tailChars)) =
      .ok u := by
  have hk := kind_of_isHttp h.isHttp
  have hcut : cut (endsAuthority u.scheme.kind)
      (a.chars ++ ((Path.rooted ss).chars ++ u.tailChars)) =
        (a.chars, (Path.rooted ss).chars ++ u.tailChars) := by
    obtain ⟨s, r, rfl⟩ := List.exists_cons_of_ne_nil hn
    refine Text.cut_append (fun c hc => ?_) (.inr ⟨'/', _, by rw [Path.chars_cons]; rfl, rfl⟩)
    obtain ⟨-, hm⟩ := has.forall_mem_chars c hc
    simp_all [endsAuthority, isSlash]
  have hpath : cut endsPath ((Path.rooted ss).chars ++ u.tailChars) =
      ((Path.rooted ss).chars, u.tailChars) := by
    refine Text.cut_append (fun c hc => (mem_path hs hc).2) ?_
    rw [tailChars]
    obtain hq | ⟨q, hq⟩ := optional_cases '?' u.query?
    · obtain hf | ⟨f, hf⟩ := optional_cases '#' u.fragment?
      · exact .inl (by rw [hq, hf]; rfl)
      · exact .inr ⟨'#', f, by rw [hq, hf]; rfl, rfl⟩
    · exact .inr ⟨'?', _, by rw [hq]; rfl, rfl⟩
  rw [Url.readAfterSlashes, hcut]
  dsimp only
  rw [has.readAuthority hk]
  show Except.ok (finish u.scheme (some a) (readPath u.scheme.kind) ([] ++ _)) = _
  rw [List.nil_append, finish, hpath]
  dsimp only
  rw [hk, h.readTail, readPath_chars hn hs, ← hp, ← ha]

theorem isVisible_of_mem_chars : ∀ c ∈ u.chars, IsVisible c := by
  obtain ⟨a, ss, -, ha, -, -, hs, hchars⟩ := h.exists_parts
  have hscheme : ∀ c ∈ u.scheme, IsVisible c := by
    obtain hs | hs := isHttp_iff.mp h.isHttp
    · rw [hs]
      exact forall_mem_of_all rfl
    · rw [hs]
      exact forall_mem_of_all rfl
  have hfragment : ∀ c ∈ optional '#' u.fragment?, IsVisible c :=
    forall_mem_optional (by decide) fun f hf c hc =>
      Percent.isVisible_of_not_fragment (h.fragment f hf c hc)
  rw [hchars, tailChars]
  simp only [List.forall_mem_append, List.forall_mem_cons]
  exact ⟨hscheme, by decide, by decide, by decide, fun c hc => (ha.forall_mem_chars c hc).1,
    fun c hc => (mem_path hs hc).1, fun c hc => (h.forall_mem_query c hc).1, hfragment⟩

theorem splitScheme? (r : List Char) :
    Url.splitScheme? (u.scheme ++ ':' :: r) = some (u.scheme, r) := by
  obtain hs | hs := isHttp_iff.mp h.isHttp
  · rw [hs]
    rfl
  · rw [hs]
    rfl

theorem parse_chars : parse u.chars = .ok u := by
  obtain ⟨a, ss, ha, has, hp, hn, hs, hchars⟩ := h.exists_parts
  have hclean : clean ([] ++ u.chars) = clean [] ++ u.chars :=
    clean_append nofun fun c hc => (h.isVisible_of_mem_chars c hc).not_le
  rw [List.nil_append] at hclean
  have hsplit : Url.splitScheme? (clean u.chars) =
      some (u.scheme, '/' :: '/' :: (a.chars ++ ((Path.rooted ss).chars ++ u.tailChars))) := by
    rw [hclean, hchars]
    exact h.splitScheme? _
  have hdrop : ∀ r, ('/' :: '/' :: (a.chars ++ r)).dropWhile isAnySlash = a.chars ++ r := by
    intro r
    obtain ⟨c, t, hc⟩ := List.exists_cons_of_ne_nil has.chars_ne_nil
    obtain ⟨-, hm⟩ := has.forall_mem_chars c (by simp [hc])
    have hslash : ¬ isAnySlash c = true := by simp_all [isAnySlash]
    rw [hc]
    exact List.dropWhile_cons_of_neg hslash
  rw [parse_of_special hsplit (kind_of_isHttp h.isHttp), hdrop]
  exact h.readAfterSlashes ha has hp hn hs

end Settled

end Url

end SchemaSnapshot
