import SchemaSnapshot.Proofs.Fetch.Endpoint
import SchemaSnapshot.Proofs.Fetch.Requests
import SchemaSnapshot.Proofs.Url.Settled

namespace SchemaSnapshot

namespace Http.Request

theorem target_ofUrl {u : Url} (h : u.Settled) :
    (ofUrl u).target = u.path.chars ++ Url.optional '?' u.query? := by
  obtain ⟨a, ha, -⟩ := h.authority
  obtain ⟨ss, hp, hn, -⟩ := h.path
  obtain ⟨s, ss, rfl⟩ := List.exists_cons_of_ne_nil hn
  unfold ofUrl
  split
  all_goals simp [target, asTarget, Url.withoutFragment, Url.withoutCredentials, ha, hp]

theorem line_toList (r : Request) :
    r.line.toList = [' '].intercalate ["GET".toList, r.target, "HTTP/1.1".toList] := by
  simp [line, List.intercalate_cons_cons]

theorem isVisible_of_mem_target {u : Url} (h : u.Settled) :
    ∀ c ∈ (ofUrl u).target, IsVisible c := by
  obtain ⟨ss, hp, -, hs⟩ := h.path
  rw [target_ofUrl h, hp, List.forall_mem_append]
  exact ⟨fun c hc => (Url.mem_path hs hc).1, fun c hc => (h.forall_mem_query c hc).1⟩

section

variable {r : Request} (h : ∀ c ∈ r.target, IsVisible c)
include h

theorem forall_mem_fields :
    ∀ q ∈ ["GET".toList, r.target, "HTTP/1.1".toList], ∀ c ∈ q, IsVisible c :=
  List.forall_mem_cons.mpr ⟨forall_mem_of_all rfl, List.forall_mem_cons.mpr
    ⟨h, List.forall_mem_singleton.mpr (forall_mem_of_all rfl)⟩⟩

theorem split_line :
    Text.split (· = ' ') r.line.toList = ["GET".toList, r.target, "HTTP/1.1".toList] := by
  rw [line_toList]
  refine Text.split_intercalate (by decide) ?_ (List.cons_ne_nil _ _)
  intro q hq c hc
  rw [decide_eq_false_iff_not]
  rintro rfl
  exact absurd (forall_mem_fields h q hq ' ' hc) (by decide)

theorem octets_line : ∀ b ∈ octets r.line, 0x20 ≤ b ∧ b ≤ 0x7E := by
  have hline : ∀ c ∈ r.line.toList, 0x20 ≤ c.toNat ∧ c.toNat ≤ 0x7E := by
    rw [line_toList]
    refine Text.forall_mem_intercalate (P := fun c : Char => 0x20 ≤ c.toNat ∧ c.toNat ≤ 0x7E)
      (by decide) ?_
    intro q hq c hc
    have hv := isVisible_iff.mp (forall_mem_fields h q hq c hc)
    exact ⟨Nat.le_of_lt hv.1, hv.2⟩
  rw [octets, Utf8.encode_ascii fun c hc => Nat.lt_of_le_of_lt (hline c hc).2 (by decide)]
  intro b hb
  obtain ⟨c, hc, rfl⟩ := List.mem_map.mp hb
  have hl := hline c hc
  have hn : (UInt8.ofNat c.toNat).toNat = c.toNat := Utf8.toNat_ofNat_of_lt (by omega)
  rw [UInt8.le_iff_toNat_le, UInt8.le_iff_toNat_le, hn]
  exact hl

end

theorem exists_octetsOf (r : Request) :
    ∃ rest, r.octetsOf = octets r.line ++ 0x0D :: 0x0A :: rest := by
  have hb : ∀ s t : String, octets (s ++ "\r\n" ++ t) = octets s ++
    0x0D :: 0x0A :: octets t := by
    intro s t
    rw [octets, String.toList_append, String.toList_append, Utf8.encode_append,
      Utf8.encode_append, List.append_assoc]
    rfl
  rw [octetsOf, String.append_assoc, hb]
  exact ⟨_, rfl⟩

end Http.Request

namespace Fetch.Client

theorem settled_of_schemaUrl {c : Client} (h : c.schemaUrl = .ok v) (hv : v.isHttp = true) :
    v.Settled :=
  Url.settled_of_parse (schemaUrl_eq_ok_iff.mp h) hv

/-- A URL that is asked for the schema is a text of visible characters, which is read as that
URL. What is sent first for it is a line of three fields, its path and query between the other
two. -/
theorem first_request_line {c : Client} (h : c.schemaUrl = .ok v) (hv : v.isHttp = true) :
    (∀ x ∈ v.text.toList, 0x21 ≤ x.toNat ∧ x.toNat ≤ 0x7E) ∧ Url.parse v.text.toList = .ok v ∧
      ∀ outer w,
        let sent := (c.schema outer).exchanges w
        (Http.isTarget (Http.Request.ofUrl v).url = true → sent ≠ []) ∧
        ∀ x ∈ sent.head?,
          Text.split (· = ' ') x.1.line.toList =
            ["GET".toList, v.path.chars ++ Url.optional '?' v.query?, "HTTP/1.1".toList] ∧
          (∃ r, v.path.chars = '/' :: r) ∧
          ∃ rest, x.1.octetsOf = octets x.1.line ++ 0x0D :: 0x0A :: rest ∧
            ∀ b ∈ octets x.1.line, 0x20 ≤ b ∧ b ≤ 0x7E := by
  have hs := settled_of_schemaUrl h hv
  rw [Url.text, String.toList_ofList]
  refine ⟨fun x hx => isVisible_iff.mp (hs.isVisible_of_mem_chars x hx), hs.parse_chars, ?_⟩
  intro outer w
  dsimp only
  rw [exchanges_schema_of_valid (schemaUrl_eq_ok_iff.mp h)]
  refine ⟨fun ht => Http.exchanges_get_ne_nil hv ht w, ?_⟩
  intro x hx
  rw [Http.first_of_get hx]
  have ht := Http.Request.isVisible_of_mem_target hs
  obtain ⟨rest, hr⟩ := (Http.Request.ofUrl v).exists_octetsOf
  refine ⟨?_, ?_, rest, hr, Http.Request.octets_line ht⟩
  · rw [Http.Request.split_line ht, Http.Request.target_ofUrl hs]
  · obtain ⟨ss, hp, hn, -⟩ := hs.path
    obtain ⟨s, ss, rfl⟩ := List.exists_cons_of_ne_nil hn
    exact ⟨_, by rw [hp, Url.Path.chars_cons]⟩

/-- Line breaks in an endpoint are dropped, blanks are encoded. -/
theorem first_request_line_of_breaks :
    let v : Url := ⟨"http".toList, some { host := .ipv4 ⟨0x7F000001⟩ },
      .rooted ["a%20HTTP".toList, "1.1".toList], some "/insights/schema".toList, none⟩
    (Client.mk "http://127.1/a HTTP/1.1\r\n?").schemaUrl = .ok v ∧ v.isHttp = true ∧
      Url.parse v.text.toList = .ok v ∧
      ∀ outer w, ∃ x,
        (((Client.mk "http://127.1/a HTTP/1.1\r\n?").schema outer).exchanges w).head? = some x ∧
        Text.split (· = ' ') x.1.line.toList =
          ["GET".toList, "/a%20HTTP/1.1?/insights/schema".toList, "HTTP/1.1".toList] := by
  intro v
  have h : (Client.mk "http://127.1/a HTTP/1.1\r\n?").schemaUrl = .ok v := rfl
  obtain ⟨-, hp, hsent⟩ := first_request_line h rfl
  refine ⟨h, rfl, hp, ?_⟩
  intro outer w
  obtain ⟨hn, hfirst⟩ := hsent outer w
  obtain ⟨x, r, hx⟩ := List.exists_cons_of_ne_nil (hn rfl)
  have hhead := congrArg List.head? hx
  exact ⟨x, hhead, (hfirst x hhead).1⟩

end Fetch.Client

end SchemaSnapshot
