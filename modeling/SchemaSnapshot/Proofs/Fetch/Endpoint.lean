import SchemaSnapshot.Proofs.Fetch.Client
import SchemaSnapshot.Proofs.Url.Extension

namespace SchemaSnapshot.Fetch.Client

theorem resolve_schemaPath (ss : List Segment) :
    Url.Path.resolve ss (Text.split (Url.isSlash .special) "insights/schema".toList) =
      ss ++ ["insights".toList, "schema".toList] := by
  show ss ++ ["insights".toList] ++ ["schema".toList] = _
  rw [List.append_assoc]
  rfl

theorem eq_of_readAfterSlashes (hh : v.isHttp = true)
    (h : Url.readAfterSlashes v.scheme
      ("insights/schema".toList.dropWhile Url.isAnySlash) = .ok v) :
    v = ⟨v.scheme, some { host := .domain "insights".toList }, .rooted ["schema".toList],
      none, none⟩ := by
  obtain hs | hs := Url.isHttp_iff.mp hh
  · rw [hs] at h ⊢
    exact Except.ok.inj (h.symm.trans rfl)
  · rw [hs] at h ⊢
    exact Except.ok.inj (h.symm.trans rfl)

theorem schemaText_toList (e : String) :
    (Client.mk e).schemaText.toList = e.toList ++ '/' :: "insights/schema".toList := by
  rw [schemaText, String.toList_append]
  rfl

theorem schemaUrl_eq_ok_iff {c : Client} :
    c.schemaUrl = .ok v ↔ Url.parse c.schemaText.toList = .ok v := by
  unfold schemaUrl
  cases Url.parse c.schemaText.toList with
  | ok u => simp
  | error e => simp

/-- An endpoint that is a URL by itself is where the schema is asked for, below the path of the
endpoint. An endpoint that becomes one only with the path after it names a scheme and nothing
else. -/
theorem schemaUrl_of_endpoint (e : String) (hm : '?' ∉ e.toList ∧ '#' ∉ e.toList)
    (hl : ∀ c, e.toList.getLast? = some c → ¬ c ≤ ' ') :
    (∀ u, Url.parse e.toList = .ok u → u.isHttp = true →
      ∃ a v, (Client.mk e).schemaUrl = .ok v ∧ v.scheme = u.scheme ∧
        u.authority? = some a ∧ v.authority? = some a ∧ v.query? = none ∧ v.fragment? = none ∧
        (v.path.chars = u.path.chars ++ "/insights/schema".toList ∨
          ∃ p, u.path.chars = p ++ ['/'] ∧ v.path.chars = p ++ "/insights/schema".toList)) ∧
    ∀ err v, Url.parse e.toList = .error err → (Client.mk e).schemaUrl = .ok v →
      v.isHttp = true →
      ∃ name slashes, Url.clean e.toList = name ++ ':' :: slashes ∧
        name.map Char.toLower = v.scheme ∧ (∀ c ∈ slashes, c = '/' ∨ c = '\\') ∧
        v = ⟨v.scheme, some { host := .domain "insights".toList }, .rooted ["schema".toList],
          none, none⟩ := by
  have hm : ∀ c ∈ e.toList, Url.endsPath c = false := by
    intro c hc
    rw [Url.endsPath, Bool.or_eq_false_iff, decide_eq_false_iff_not, decide_eq_false_iff_not]
    constructor
    · rintro rfl
      exact hm.1 hc
    · rintro rfl
      exact hm.2 hc
  have ht : ∀ c ∈ "insights/schema".toList, ¬ c ≤ ' ' ∧ Url.endsPath c = false := by
    simp [Url.endsPath]
  simp only [schemaUrl_eq_ok_iff, schemaText_toList]
  constructor
  · intro u hu hh
    obtain ⟨a, ss, ha, hq, hf, hp, hv⟩ := Url.parse_append_of_ok hm hl ht hu hh
    rw [resolve_schemaPath] at hv
    refine ⟨a, _, hv, rfl, ha, ha, hq, hf, ?_⟩
    dsimp only
    rw [Url.Path.chars_append]
    obtain hp | hp := hp
    · rw [hp]
      exact .inl rfl
    · refine .inr ⟨_, ?_, rfl⟩
      rw [hp, Url.Path.chars_append]
      rfl
  · intro err v he hv hh
    obtain ⟨name, slashes, hc, hn, hs, hr⟩ := Url.parse_append_of_error hm hl ht he hv hh
    refine ⟨name, slashes, hc, hn, ?_, eq_of_readAfterSlashes hh hr⟩
    intro c h
    simpa [Url.isAnySlash] using hs c h

/-- Neither backslashes, a user, the usual port nor hidden dots lead elsewhere; two slashes do.
-/
theorem schemaUrl_of_dots_and_slashes :
    let u : Url := ⟨"http".toList, some ⟨"ada".toList, none, .domain "localhost".toList, none⟩,
      .rooted [[]], none, none⟩
    let v : Url := ⟨"https".toList, some { host := .domain "insights".toList },
      .rooted ["schema".toList], none, none⟩
    Url.parse "HTTP:\\\\ada@LOCALHOST:80\\a/%2e%2E/".toList = .ok u ∧
    (∃ a w, (Client.mk "HTTP:\\\\ada@LOCALHOST:80\\a/%2e%2E/").schemaUrl = .ok w ∧
      w.scheme = u.scheme ∧ u.authority? = some a ∧ w.authority? = some a ∧
      w.query? = none ∧ w.fragment? = none ∧
      (w.path.chars = u.path.chars ++ "/insights/schema".toList ∨
        ∃ p, u.path.chars = p ++ ['/'] ∧ w.path.chars = p ++ "/insights/schema".toList)) ∧
    Url.parse "https:/\\".toList = .error .emptyHost ∧
    (Client.mk "https:/\\").schemaUrl = .ok v ∧
    ∃ name slashes, Url.clean "https:/\\".toList = name ++ ':' :: slashes ∧
      name.map Char.toLower = v.scheme ∧ ∀ c ∈ slashes, c = '/' ∨ c = '\\' := by
  intro u v
  refine ⟨rfl, ?_, rfl, rfl, ?_⟩
  · exact (schemaUrl_of_endpoint "HTTP:\\\\ada@LOCALHOST:80\\a/%2e%2E/" (by simp) (by simp)).1
      u rfl rfl
  · obtain ⟨name, slashes, hc, hn, hs, -⟩ :=
      (schemaUrl_of_endpoint "https:/\\" (by simp) (by simp)).2 .emptyHost v rfl rfl rfl
    exact ⟨name, slashes, hc, hn, hs⟩

end SchemaSnapshot.Fetch.Client
