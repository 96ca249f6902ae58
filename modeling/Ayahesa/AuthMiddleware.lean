import Ayahesa.HttpRequest
import Ayahesa.CompatStrings
import Ayahesa.JwtToken

/-! # Authentication by a bearer token

The header value is cut at blanks, the second piece is verified as a token, and only then
are principal and object id of the request set. -/
namespace AuthMiddleware

open CMemory CompatStrings HttpRequest DelimitedFields Base64urlCodec JwtToken

inductive Outcome where
  | ok
  | error
  deriving DecidableEq, Repr

def blank : UInt8 := 32

def blanks : Bytes := bytes " "

def unsigned_int (i : ℤ) : ℕ := (i % 2 ^ 32).toNat

def middleware_auth_jwt (E : Library) (t₁ t₂ : ℤ) (data : Bytes)
    (hdlr_extra : Option RequestData) : C (Outcome × RequestData) := do
  let jwt : Jwt := ⟨none, none, none, 0, 0, 0⟩
  let extra := hdlr_extra.getD RequestData.zero
  match strtok data blanks with
  | (none, _) => return (.error, extra)
  | (some method, next) =>
    if strtolower method = bytes "bearer" then do
      let (verified, jwt) ← jwt_verify E t₁ t₂ (strtok next blanks).1 jwt
      if verified then do
        let principal ← not_null jwt.sub
        return (.ok, { extra with object_id := unsigned_int jwt.oid, principal := some principal })
      else return (.error, extra)
    else return (.error, extra)

theorem blanks_eq : blanks = [blank] := by decide

theorem fields_blank (s : Bytes) : fields blank s = words (blanks.contains ·) s := by
  rw [fields_eq_words, blanks_eq]
  refine words_congr fun c _ => ?_
  rw [Bool.eq_iff_iff, beq_iff_eq]
  simp

theorem strtok_fields (s : Bytes) : (strtok s blanks).1 = (fields blank s).head? ∧
    fields blank (strtok s blanks).2 = (fields blank s).tail := by
  simp only [fields_blank]
  exact strtok_words s blanks

section Run

variable {E : Library} {t₁ t₂ : ℤ} {data : Bytes} {hdlr_extra : Option RequestData}
  {extra : RequestData}

/-- Success means that the second field of the header was verified as a token. -/
theorem middleware_auth_jwt_ok
    (h : middleware_auth_jwt E t₁ t₂ data hdlr_extra = .ok (.ok, extra)) :
    ∃ method token more jwt sub, fields blank data = method :: token :: more ∧
      strtolower method = bytes "bearer" ∧
      jwt_verify E t₁ t₂ (some token) ⟨none, none, none, 0, 0, 0⟩ = .ok (true, jwt) ∧
      jwt.sub = some sub ∧
      extra = { hdlr_extra.getD RequestData.zero with
        object_id := unsigned_int jwt.oid, principal := some sub } := by
  obtain ⟨hfirst, hrest⟩ := strtok_fields data
  unfold middleware_auth_jwt at h
  rcases hs : strtok data blanks with ⟨_ | method, next⟩
  · simp only [hs, pure, Except.pure] at h
    cases h
  · rw [hs] at hfirst hrest
    simp only [hs] at h
    split at h
    · next hbearer =>
      obtain ⟨⟨verified, jwt⟩, hverify, h⟩ := bind_ok h
      cases verified with
      | false => cases h
      | true =>
        obtain ⟨sub, hsub, h⟩ := bind_ok h
        obtain ⟨hsecond, _⟩ := strtok_fields next
        rw [hrest] at hsecond
        rcases hf : fields blank data with _ | ⟨m, _ | ⟨token, more⟩⟩
        · simp [hf] at hfirst
        · simp only [hf, List.tail_cons, List.head?_nil] at hsecond
          rw [hsecond] at hverify
          cases hverify
        · simp only [hf, List.tail_cons, List.head?_cons, Option.some.injEq] at hfirst hsecond
          rw [hsecond] at hverify
          exact ⟨m, token, more, jwt, sub, rfl, hfirst ▸ hbearer, hverify, not_null_ok hsub,
            (Prod.mk.inj (Except.ok.inj h)).2.symm⟩
    · cases h

/-- A refused request keeps what it had; without request data it gets the zeroed structure. -/
theorem middleware_auth_jwt_error
    (h : middleware_auth_jwt E t₁ t₂ data hdlr_extra = .ok (.error, extra)) :
    extra = hdlr_extra.getD RequestData.zero := by
  unfold middleware_auth_jwt at h
  rcases hs : strtok data blanks with ⟨_ | method, next⟩
  · simp only [hs, pure, Except.pure] at h
    exact (Prod.mk.inj (Except.ok.inj h)).2.symm
  · simp only [hs] at h
    split at h
    · obtain ⟨⟨verified, jwt⟩, _, h⟩ := bind_ok h
      cases verified with
      | true =>
        obtain ⟨_, _, h⟩ := bind_ok h
        cases h
      | false => exact (Prod.mk.inj (Except.ok.inj h)).2.symm
    · exact (Prod.mk.inj (Except.ok.inj h)).2.symm

end Run

/-- A request is let through only on a payload whose signature was made with the key, whose
claims were read from the signed part and whose times hold; a refused request is unchanged. -/
theorem auth_jwt_authentic (E : Library) (t₁ t₂ : ℤ) (data : Bytes)
    (hdlr_extra : Option RequestData) (extra : RequestData) (h0 : 0 ∉ data) :
    (middleware_auth_jwt E t₁ t₂ data hdlr_extra = .ok (.ok, extra) →
      ∃ method token P S raw mac decoded len jwt,
        (∃ more, fields blank data = method :: token :: more) ∧
        strtolower method = bytes "bearer" ∧
        (∃ more, fields dot token = HEADER_ENCODED :: P :: S :: more) ∧
        E.kore.base64_decode E.app_key = some raw ∧
        mac = E.hmac_sha256 raw (HEADER_ENCODED ++ [dot] ++ P) ∧
        base64url_encode mac = .ok (S ++ [0], S.length) ∧
        base64url_decode P = .ok (decoded, some len) ∧
        Claims (E.yajl_tree_parse (c_string (decoded.take len))) jwt ∧
        jwt.iat ≤ t₁ ∧ t₂ ≤ jwt.exp ∧
        extra.principal = jwt.sub ∧ (extra.object_id : ℤ) = jwt.oid % 2 ^ 32) ∧
    (middleware_auth_jwt E t₁ t₂ data hdlr_extra = .ok (.error, extra) →
      extra = hdlr_extra.getD RequestData.zero) := by
  refine ⟨?_, middleware_auth_jwt_error⟩
  intro h
  obtain ⟨method, token, more, jwt, sub, hf, hbearer, hverify, hsub, rfl⟩ :=
    middleware_auth_jwt_ok h
  have htoken : 0 ∉ token := fun hm => h0 ((mem_fields (d := blank) (s := data)
    (by simp [hf])).2.2.subset hm)
  obtain ⟨raw, P, S, ha⟩ := jwt_verify_accepts htoken hverify
  obtain ⟨decodedP, hdec, hclaims⟩ := parse_payload_ok ha.parsed
  obtain ⟨decoded, len, hlen, rfl⟩ := decode_payload_ok hdec
  refine ⟨method, token, P, S, raw, _, decoded, len, jwt, ⟨more, hf⟩, hbearer, ha.fields, ha.key,
    rfl, ?_, hlen, hclaims, ha.active, ha.unexpired, hsub.symm, ?_⟩
  · rw [ha.signature]
    exact base64url_encode_eq (by rw [E.hmac_sha256_length]; decide)
  · simp only [unsigned_int]
    omega

theorem auth_jwt_authentic_reference :
    (∃ (P S mac : Bytes) (jwt : Jwt),
      mac = reference.hmac_sha256 (bytes "A") (HEADER_ENCODED ++ [dot] ++ P) ∧
      base64url_encode mac = .ok (S ++ [0], S.length) ∧ jwt.iat ≤ 1000 ∧ 1060 ≤ jwt.exp ∧
      some (bytes "alice") = jwt.sub ∧ 7 = jwt.oid % 2 ^ 32) ∧
    (⟨9, none, none⟩ : RequestData) = Option.getD (some ⟨9, none, none⟩) RequestData.zero := by
  constructor
  · obtain ⟨_, _, P, S, raw, mac, _, _, jwt, _, _, _, hkey, hmac, henc, _, _, hiat, hexp, hsub,
      hoid⟩ := (auth_jwt_authentic reference 1000 1060
        (bytes "BEARER " ++ HEADER_ENCODED ++ [dot] ++ reference_P ++ [dot] ++ reference_S) none
        ⟨7, some (bytes "alice"), none⟩ (by decide +kernel)).1 (by decide +kernel)
    obtain rfl : bytes "A" = raw :=
      Option.some.inj ((by decide : _ = some (bytes "A")).symm.trans hkey)
    exact ⟨P, S, mac, jwt, hmac, henc, hiat, hexp, hsub, hoid⟩
  · exact (auth_jwt_authentic reference 1000 1060 (bytes "Basic eA") (some ⟨9, none, none⟩)
      ⟨9, none, none⟩ (by decide)).2 (by decide +kernel)

end AuthMiddleware
