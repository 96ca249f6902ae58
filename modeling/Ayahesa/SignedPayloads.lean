import Ayahesa.AuthTotality

/-! # Signed payloads that do not say what they should

Behind the signature the payload is trusted: that it decodes, that it is an object and that it has
all claims of the expected types. -/
namespace SignedPayloads

open CMemory DelimitedFields Base64urlCodec JwtToken AuthTotality

section Payload

variable {E : Library} {token P : Bytes}

/-- The token gets past the check of its header and of its signature; its payload is `P`. -/
structure Signed (E : Library) (token P : Bytes) : Prop where
  object : token.getD 0 0 = 101 ∧ token.getD 1 0 = 121
  signature : ∃ S more, fields dot token = HEADER_ENCODED :: P :: S :: more ∧
    check_signature E HEADER_ENCODED P S = .ok true

structure Complete (tree : Option Members) : Prop where
  iss : ∃ s, yajl_tree_get tree (bytes "iss") = some (.string s)
  sub : ∃ s, yajl_tree_get tree (bytes "sub") = some (.string s)
  aud : ∃ s, yajl_tree_get tree (bytes "aud") = some (.string s)
  oid : ∃ i, yajl_tree_get tree (bytes "oid") = some (.number i)
  iat : ∃ i, yajl_tree_get tree (bytes "iat") = some (.number i)
  exp : ∃ i, yajl_tree_get tree (bytes "exp") = some (.number i)

def document (E : Library) (P : Bytes) : Option Members := E.yajl_tree_parse (c_string (octets P))

/-- The call gets to a verdict, and accepts only what has all claims. -/
def Rejects (E : Library) (t₁ t₂ : ℤ) (token P : Bytes) (jwt : Jwt) : Prop :=
  ∃ verdict jwt', jwt_verify E t₁ t₂ (some token) jwt = .ok (verdict, jwt') ∧
    (verdict = true → Complete (document E P))

theorem complete_iff (tree : Option Members) : Complete tree ↔ ∃ jwt, Claims tree jwt := by
  constructor
  · rintro ⟨⟨iss, hiss⟩, ⟨sub, hsub⟩, ⟨aud, haud⟩, ⟨oid, hoid⟩, ⟨iat, hiat⟩, exp, hexp⟩
    exact ⟨⟨some (c_string iss), some (c_string sub), some (c_string aud), oid, iat, exp⟩,
      ⟨iss, hiss, rfl⟩, ⟨sub, hsub, rfl⟩, ⟨aud, haud, rfl⟩, hoid, hiat, hexp⟩
  · rintro ⟨jwt, h⟩
    obtain ⟨iss, hiss, -⟩ := h.iss
    obtain ⟨sub, hsub, -⟩ := h.sub
    obtain ⟨aud, haud, -⟩ := h.aud
    exact ⟨⟨iss, hiss⟩, ⟨sub, hsub⟩, ⟨aud, haud⟩, ⟨_, h.oid⟩, ⟨_, h.iat⟩, _, h.exp⟩

/-- A single character leaves the length unset, and a product that wraps the buffer too small. -/
theorem decode_payload_iff (hlen : P.length + 2 < 2 ^ 64) (decoded : Bytes) :
    decode_payload P = .ok decoded ↔
      P.length ≠ 1 ∧ 3 * P.length < 2 ^ 64 ∧ decoded = c_string (octets P) := by
  by_cases h1 : P.length = 1
  · refine iff_of_false (fun h => ?_) fun h => h.1 h1
    obtain ⟨out, n, hdec, -⟩ := decode_payload_ok h
    rw [base64url_decode, if_pos h1] at hdec
    cases hdec
  by_cases h3 : 3 * P.length < 2 ^ 64
  · have hdec := base64url_decode_reported h1 h3
    have hroom : (octets P).length + 1 =
        (calloc (size_t (3 * P.length) / 4 + 1)).length := by
      rw [octets_length, size_t_of_lt h3, calloc, List.length_replicate]
    have hfill := @fill_of_le (calloc (size_t (3 * P.length) / 4 + 1)) (octets P) (by omega)
    have hrest : (calloc (size_t (3 * P.length) / 4 + 1)).drop (octets P).length = [0] := by
      rw [calloc, List.length_replicate] at hroom
      rw [calloc, List.drop_replicate, ← hroom, Nat.add_sub_cancel_left]
      rfl
    have hstore := store_at (octets P) 0 [] 0
    have hread := cstr_of_mem (s := octets P ++ [0]) [] (by simp)
    rw [List.append_nil, c_string_append_zero] at hread
    have hrun : decode_payload P = .ok (c_string (octets P)) := by
      simp only [decode_payload, hdec, hfill, hrest, hstore, hread, bind, Except.bind]
    rw [hrun, Except.ok.injEq]
    exact ⟨fun h => ⟨h1, h3, h.symm⟩, fun h => h.2.2.symm⟩
  · refine iff_of_false (fun h => ?_) fun h => h3 h.2.1
    obtain ⟨⟨out, len⟩, hdec, h⟩ := bind_ok h
    obtain ⟨buf, hfill, -⟩ := bind_ok h
    rw [base64url_decode_writes h1 hlen] at hdec
    obtain ⟨rfl, -⟩ := Prod.mk.inj (Except.ok.inj hdec)
    have hroom := (fill_ok hfill).1
    rw [octets_length, calloc, List.length_replicate, size_t] at hroom
    omega

theorem parse_payload_iff (hlen : P.length + 2 < 2 ^ 64) :
    (∃ jwt, parse_payload E P = .ok jwt) ↔
      P.length ≠ 1 ∧ 3 * P.length < 2 ^ 64 ∧ Complete (document E P) := by
  rw [parse_payload_returns_iff, complete_iff]
  constructor
  · rintro ⟨decoded, jwt, hdecode, hclaims⟩
    obtain ⟨h1, h3, rfl⟩ := (decode_payload_iff hlen decoded).mp hdecode
    exact ⟨h1, h3, jwt, hclaims⟩
  · rintro ⟨h1, h3, jwt, hclaims⟩
    exact ⟨_, jwt, (decode_payload_iff hlen _).mpr ⟨h1, h3, rfl⟩, hclaims⟩

theorem verify_signed (t₁ t₂ : ℤ) (jwt : Jwt) (h : Signed E token P) :
    jwt_verify E t₁ t₂ (some token) jwt = (do
      let jwt ← parse_payload E P
      if t₁ < jwt.iat then return (false, jwt)
      else if t₂ > jwt.exp then return (false, jwt)
      else return (true, jwt)) := by
  obtain ⟨S, more, hfields, hcheck⟩ := h.signature
  rw [verify_fields t₁ t₂ jwt h.object.1 h.object.2 hfields, hcheck]
  rfl

theorem verify_signed_returns (t₁ t₂ : ℤ) (jwt : Jwt) (h : Signed E token P) :
    (∃ r, jwt_verify E t₁ t₂ (some token) jwt = .ok r) ↔
      ∃ parsed, parse_payload E P = .ok parsed := by
  rw [verify_signed t₁ t₂ jwt h]
  constructor
  · rintro ⟨r, hr⟩
    obtain ⟨parsed, hparse, -⟩ := bind_ok hr
    exact ⟨parsed, hparse⟩
  · rintro ⟨parsed, hparse⟩
    simp only [hparse, bind, Except.bind]
    split
    · exact ⟨_, rfl⟩
    split
    · exact ⟨_, rfl⟩
    · exact ⟨_, rfl⟩

end Payload

/-- A signed token gets a verdict, and the right one, if and only if its payload is not a single
character, is not so long that its size wraps, and decodes to an object with all the claims. -/
theorem signed_rejects_iff (E : Library) (t₁ t₂ : ℤ) (token P : Bytes) (jwt : Jwt)
    (h : Signed E token P) :
    Rejects E t₁ t₂ token P jwt ↔
      P.length ≠ 1 ∧ 3 * P.length < 2 ^ 64 ∧ Complete (document E P) := by
  have hlen : P.length + 2 < 2 ^ 64 := by
    obtain ⟨S, more, -, hcheck⟩ := h.signature
    have hfits := check_signature_fits hcheck
    rw [HEADER_ENCODED_length, header_encoded_length] at hfits
    omega
  rw [← parse_payload_iff hlen, ← verify_signed_returns t₁ t₂ jwt h]
  constructor
  · rintro ⟨verdict, jwt', hrun, -⟩
    exact ⟨(verdict, jwt'), hrun⟩
  · rintro ⟨⟨verdict, jwt'⟩, hrun⟩
    refine ⟨verdict, jwt', hrun, fun _ => ?_⟩
    have hparsed := (verify_signed_returns t₁ t₂ jwt h).mp ⟨_, hrun⟩
    exact ((parse_payload_iff hlen).mp hparsed).2.2

def reference_token : Bytes := HEADER_ENCODED ++ [dot] ++ reference_P ++ [dot] ++ reference_S

theorem signed_rejects_iff_reference :
    Rejects reference 1000 1060 reference_token reference_P ⟨none, none, none, 0, 0, 0⟩ := by
  have hsigned : Signed reference reference_token reference_P :=
    ⟨by decide +kernel, reference_S, [], by decide +kernel, by decide +kernel⟩
  have hdocument : document reference reference_P = some reference_members := by decide +kernel
  refine (signed_rejects_iff reference 1000 1060 reference_token reference_P _ hsigned).mpr
    ⟨by decide +kernel, by decide +kernel, ?_⟩
  rw [hdocument]
  exact ⟨⟨_, rfl⟩, ⟨_, rfl⟩, ⟨_, rfl⟩, ⟨_, rfl⟩, ⟨_, rfl⟩, _, rfl⟩

/-- A payload of one character, with the signature that the reference key makes for it. -/
def short_token : Bytes :=
  HEADER_ENCODED ++ [dot] ++ [65] ++ [dot] ++ List.replicate 43 65

theorem short_payload_unset :
    ¬∀ (E : Library) (t₁ t₂ : ℤ) (token P : Bytes) (jwt : Jwt), Signed E token P →
      Rejects E t₁ t₂ token P jwt := by
  intro h
  have hsigned : Signed reference short_token [65] :=
    ⟨by decide, List.replicate 43 65, [], by decide +kernel, by decide +kernel⟩
  obtain ⟨verdict, jwt', hrun, -⟩ := h reference 1000 1060 short_token [65]
    ⟨none, none, none, 0, 0, 0⟩ hsigned
  have hfault : jwt_verify reference 1000 1060 (some short_token) ⟨none, none, none, 0, 0, 0⟩ =
      .error .uninitialised := by decide +kernel
  rw [hfault] at hrun
  cases hrun

end SignedPayloads
