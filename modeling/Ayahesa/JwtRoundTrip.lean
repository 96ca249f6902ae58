import Ayahesa.JwtGrammar

/-! # Issue, then verify

The token that `jwt_token_new` returns has the plain layout, and the verifier accepts it during
the session lifetime and at no other time. The JSON library enters through one assumption: on
the members of the payload its parser inverts its generator. -/
namespace JwtRoundTrip

open CMemory KoreApi DelimitedFields Base64urlCodec JwtToken JwtGrammar

variable {E : Library}

/-- The generated text is a C string that is not empty and parses back to its members. -/
structure YajlInverts (E : Library) (members : Members) : Prop where
  parse_gen : E.yajl_tree_parse (E.yajl_gen_map members) = some members
  gen_clean : 0 ∉ E.yajl_gen_map members
  gen_ne_nil : E.yajl_gen_map members ≠ []

def issued_token (E : Library) (raw payload : Bytes) : Bytes :=
  layout 0 0 (text payload) (text (E.hmac_sha256 raw (HEADER_ENCODED ++ [dot] ++ text payload))) []

theorem text_field (x : Bytes) : dot ∉ text x := fun h => absurd (text_mem h) (by decide)

theorem text_ne_nil {x : Bytes} (h : x ≠ []) : text x ≠ [] := by
  have hlen := text_length x
  have := List.length_pos_of_ne_nil h
  intro hnil
  rw [hnil, List.length_nil] at hlen
  omega

theorem mac_text_ne_nil (raw data : Bytes) : text (E.hmac_sha256 raw data) ≠ [] :=
  text_ne_nil (List.ne_nil_of_length_pos (by rw [E.hmac_sha256_length]; decide))

section Issue

variable {now : ℤ} {jti : Cuuid} {jwt : Jwt} {iss sub aud : Bytes}

def issued_members (E : Library) (now : ℤ) (jti : Cuuid) (jwt : Jwt) (iss sub aud : Bytes) :
    Members :=
  payload_members iss sub aud (quid_tostring jti) jwt.oid now (now + E.app_session_lifetime)

def completed (E : Library) (now : ℤ) (jwt : Jwt) : Jwt :=
  { jwt with iat := now, exp := now + E.app_session_lifetime }

/-- The encoding and its NUL fit the computed buffer exactly when the size does not wrap. -/
theorem payload_buffer_fits (x : Bytes) :
    (∃ d, fill (calloc (size_t (4 * x.length) / 3 + 2)) (text x ++ [0]) = .ok d) ↔
      4 * x.length < 2 ^ 64 := by
  have hlen := text_length x
  have hmod : 2 ^ 64 ≤ 4 * x.length → size_t (4 * x.length) ≤ 4 * x.length - 2 ^ 64 := by
    intro h
    unfold size_t
    omega
  constructor
  · rintro ⟨d, hd⟩
    obtain ⟨hle, _⟩ := fill_ok hd
    simp only [calloc, List.length_append, List.length_singleton, List.length_replicate] at hle
    by_contra h
    have := hmod (by omega)
    omega
  · intro h
    refine ⟨_, fill_of_le ?_⟩
    rw [size_t_of_lt h]
    simp only [calloc, List.length_append, List.length_singleton, List.length_replicate]
    omega

theorem generate_payload_ok {d : Bytes} {len : ℕ} {jwt' : Jwt}
    (hiss : E.app_domainname = some iss) (hsub : jwt.sub = some sub) (haud : jwt.aud = some aud)
    (h : generate_payload E now jti jwt = .ok (d, len, jwt')) :
    jwt' = completed E now jwt ∧ long_long (now + E.app_session_lifetime) = .ok jwt'.exp ∧
      ∃ payload, payload = E.yajl_gen_map (issued_members E now jti jwt iss sub aud) ∧
        4 * payload.length < 2 ^ 64 ∧ len = (text payload).length ∧
        cstr d 0 = .ok (text payload) := by
  obtain ⟨expire_at, hexp, h⟩ := bind_ok h
  rw [hiss, hsub, haud] at h
  simp only [not_null, bind, Except.bind] at h
  obtain rfl := long_long_ok hexp
  obtain ⟨encLen, henc, hencLen⟩ := base64url_encode_writes
    (E.yajl_gen_map (issued_members E now jti jwt iss sub aud))
  rw [issued_members] at henc
  rw [henc] at h
  obtain ⟨buf, hfill, h⟩ := bind_ok h
  obtain ⟨rfl, rfl, rfl⟩ : buf = d ∧ encLen = len ∧ completed E now jwt = jwt' := by
    simpa [completed, hsub, haud, pure, Except.pure] using h
  have hfits := (payload_buffer_fits _).mp ⟨_, hfill⟩
  exact ⟨rfl, hexp, _, rfl, hfits, hencLen hfits, sprintf_cstr hfill (text_clean _)⟩

theorem generate_payload_eq
    (hiss : E.app_domainname = some iss) (hsub : jwt.sub = some sub) (haud : jwt.aud = some aud)
    (hexp : long_long (now + E.app_session_lifetime) = .ok (now + E.app_session_lifetime))
    (hfits : 4 * (E.yajl_gen_map (issued_members E now jti jwt iss sub aud)).length < 2 ^ 64) :
    ∃ d len, generate_payload E now jti jwt = .ok (d, len, completed E now jwt) := by
  obtain ⟨encLen, henc, _⟩ := base64url_encode_writes
    (E.yajl_gen_map (issued_members E now jti jwt iss sub aud))
  obtain ⟨d, hfill⟩ := (payload_buffer_fits _).mpr hfits
  rw [issued_members] at henc hfill
  refine ⟨d, encLen, ?_⟩
  simp [generate_payload, hexp, hiss, hsub, haud, not_null, henc, hfill, completed, bind,
    Except.bind, pure, Except.pure]

theorem layout_plain (P S : Bytes) :
    layout 0 0 P S [] = HEADER_ENCODED ++ [dot] ++ P ++ [dot] ++ S := by
  simp [layout]

private theorem layout_clean {P S : Bytes} (hP : 0 ∉ P) (hS : 0 ∉ S) : 0 ∉ layout 0 0 P S [] := by
  have hH := HEADER_ENCODED_clean
  rw [layout_plain]
  simp only [List.mem_append, List.mem_singleton, not_or]
  exact ⟨⟨⟨⟨hH, by decide⟩, hP⟩, by decide⟩, hS⟩

theorem issued_token_clean (raw payload : Bytes) : 0 ∉ issued_token E raw payload :=
  layout_clean (text_clean _) (text_clean _)

theorem jwt_token_new_ok {token : Bytes} {jwt' : Jwt} {raw : Bytes}
    (hkey : E.kore.base64_decode E.app_key = some raw)
    (hiss : E.app_domainname = some iss) (hsub : jwt.sub = some sub) (haud : jwt.aud = some aud)
    (h : jwt_token_new E now jti jwt = .ok (token, jwt')) :
    long_long (now + E.app_session_lifetime) = .ok (now + E.app_session_lifetime) ∧
      4 * (E.yajl_gen_map (issued_members E now jti jwt iss sub aud)).length < 2 ^ 64 ∧
      token = issued_token E raw (E.yajl_gen_map (issued_members E now jti jwt iss sub aud)) := by
  obtain ⟨raw', hraw, h⟩ := bind_ok h
  obtain rfl : raw' = raw := Except.ok.inj (hraw.symm.trans (decoded_key_eq hkey))
  obtain ⟨⟨d, len, jwt₁⟩, hgen, h⟩ := bind_ok h
  obtain ⟨rfl, hexp, payload, rfl, hfits, rfl, hd⟩ := generate_payload_ok hiss hsub haud hgen
  refine ⟨hexp, hfits, ?_⟩
  obtain ⟨payload, hpayload, h⟩ := bind_ok h
  obtain rfl : text _ = payload := Except.ok.inj (hd.symm.trans hpayload)
  obtain ⟨data, hdata, h⟩ := bind_ok h
  have hsign := sign_payload_eq (E := E) raw'
    (sprintf_cstr hdata (signed_data_clean HEADER_ENCODED_clean (text_clean _)))
  obtain ⟨⟨sig, sigLen⟩, hsig, h⟩ := bind_ok h
  obtain ⟨rfl, rfl⟩ := Prod.mk.inj (Except.ok.inj (hsign.symm.trans hsig))
  obtain ⟨signature, hs, h⟩ := bind_ok h
  obtain rfl := Except.ok.inj ((cstr_start [] (text_clean _)).symm.trans hs)
  obtain ⟨buf, hbuf, h⟩ := bind_ok h
  obtain ⟨out, hout, h⟩ := bind_ok h
  obtain ⟨rfl, _⟩ := Prod.mk.inj (Except.ok.inj h)
  rw [← layout_plain] at hbuf
  exact Except.ok.inj (hout.symm.trans (sprintf_cstr hbuf (issued_token_clean raw' _)))

theorem sprintf_fits {n : ℕ} {t : Bytes} (hn : n = t.length + 1) (hlt : n < 2 ^ 64) :
    ∃ d, sprintf (calloc (size_t n)) t = .ok d := by
  refine ⟨_, fill_of_le ?_⟩
  rw [size_t_of_lt hlt, hn]
  simp [calloc]

/-- The data is signed without a fault, and the signature is read back from its buffer. -/
theorem signed_data_fits (E : Library) (raw : Bytes) {payload data : Bytes}
    (hfits : 4 * payload.length < 2 ^ 64) (hdata : data = HEADER_ENCODED ++ [dot] ++ text payload) :
    ∃ d, sprintf (calloc (size_t (HEADER_ENCODED.length + 1 + (text payload).length + 1))) data =
        .ok d ∧
      sign_payload E raw d =
        .ok (text (E.hmac_sha256 raw data) ++ [0], (text (E.hmac_sha256 raw data)).length) ∧
      cstr (text (E.hmac_sha256 raw data) ++ [0]) 0 = .ok (text (E.hmac_sha256 raw data)) := by
  subst hdata
  have hlen := text_length payload
  have hH : HEADER_ENCODED.length = 36 := HEADER_ENCODED_length
  have hroom : HEADER_ENCODED.length + 1 + (text payload).length + 1 =
      (HEADER_ENCODED ++ [dot] ++ text payload).length + 1 := by
    simp only [List.length_append, List.length_singleton]
  obtain ⟨d, hd⟩ := sprintf_fits hroom (by omega)
  have hclean := signed_data_clean HEADER_ENCODED_clean (text_clean payload)
  exact ⟨d, hd, sign_payload_eq raw (sprintf_cstr hd hclean), cstr_start [] (text_clean _)⟩

theorem jwt_token_new_eq {raw : Bytes} (hkey : E.kore.base64_decode E.app_key = some raw)
    (hiss : E.app_domainname = some iss) (hsub : jwt.sub = some sub) (haud : jwt.aud = some aud)
    (hexp : long_long (now + E.app_session_lifetime) = .ok (now + E.app_session_lifetime))
    (hfits : 4 * (E.yajl_gen_map (issued_members E now jti jwt iss sub aud)).length < 2 ^ 64) :
    ∃ token jwt', jwt_token_new E now jti jwt = .ok (token, jwt') := by
  obtain ⟨d, len, hgen⟩ := generate_payload_eq hiss hsub haud hexp hfits
  obtain ⟨_, _, payload, rfl, _, rfl, hd⟩ := generate_payload_ok hiss hsub haud hgen
  generalize E.yajl_gen_map (issued_members E now jti jwt iss sub aud) = payload at *
  obtain ⟨data, hdata, hsign, hs⟩ := signed_data_fits E raw hfits rfl
  have hlen := text_length payload
  have hmac := text_length (E.hmac_sha256 raw (HEADER_ENCODED ++ [dot] ++ text payload))
  rw [E.hmac_sha256_length] at hmac
  have hH : HEADER_ENCODED.length = 36 := HEADER_ENCODED_length
  have hroom : header_encoded_length + 1 + (text payload).length + 1 +
      (text (E.hmac_sha256 raw (HEADER_ENCODED ++ [dot] ++ text payload))).length + 1 =
      (HEADER_ENCODED ++ [dot] ++ text payload ++ [dot] ++
        text (E.hmac_sha256 raw (HEADER_ENCODED ++ [dot] ++ text payload))).length + 1 := by
    simp only [← HEADER_ENCODED_length, List.length_append, List.length_singleton]
  obtain ⟨buf, hbuf⟩ := sprintf_fits hroom (by rw [← HEADER_ENCODED_length]; omega)
  rw [HEADER_ENCODED_length] at hdata
  have hclean := issued_token_clean (E := E) raw payload
  rw [issued_token, layout_plain] at hclean
  refine ⟨issued_token E raw payload, completed E now jwt, ?_⟩
  rw [issued_token, layout_plain]
  simp only [jwt_token_new, decoded_key_eq hkey, hgen, hd, hdata, hsign, hs, hbuf,
    sprintf_cstr hbuf hclean, bind, Except.bind, pure, Except.pure]

end Issue

section Verify

variable {raw payload : Bytes}

theorem check_signature_issued (hkey : E.kore.base64_decode E.app_key = some raw)
    (hfits : 4 * payload.length < 2 ^ 64) :
    check_signature E HEADER_ENCODED (text payload)
      (text (E.hmac_sha256 raw (HEADER_ENCODED ++ [dot] ++ text payload))) = .ok true := by
  obtain ⟨data, hdata, hsign, hs⟩ := signed_data_fits E raw hfits rfl
  simp only [check_signature, decoded_key_eq hkey, hdata, hsign, hs, bind, Except.bind, pure,
    Except.pure, decide_true]

theorem decode_payload_text (h0 : 0 ∉ payload) (hfits : 4 * payload.length < 2 ^ 64) :
    decode_payload (text payload) = .ok payload := by
  have hlen := text_length payload
  have hsize : size_t (3 * (text payload).length) = 3 * (text payload).length :=
    size_t_of_lt (by omega)
  obtain ⟨k, hk⟩ : ∃ k, 3 * (text payload).length / 4 + 1 = payload.length + (k + 1) :=
    ⟨3 * (text payload).length / 4 - payload.length, by omega⟩
  have hfill : fill (calloc (payload.length + (k + 1))) payload =
      .ok (payload ++ 0 :: List.replicate k 0) := by
    rw [fill_of_le (by simp [calloc])]
    simp [calloc, List.drop_replicate, List.replicate_succ]
  have hstore : store (payload ++ 0 :: List.replicate k 0) payload.length 0 =
      .ok (payload ++ 0 :: List.replicate k 0) := by
    simp [store]
  have hcstr := cstr_start (List.replicate k 0) h0
  simp only [decode_payload, decode_encode hfits, hsize, hk, hfill, hstore, hcstr, bind,
    Except.bind]

theorem parse_payload_members {iss sub aud jti : Bytes} {oid iat exp : ℤ}
    (hiss : 0 ∉ iss) (hsub : 0 ∉ sub) (haud : 0 ∉ aud) {P : Bytes}
    (hdec : decode_payload P = .ok payload)
    (htree : E.yajl_tree_parse payload = some (payload_members iss sub aud jti oid iat exp)) :
    parse_payload E P = .ok ⟨some iss, some sub, some aud, oid, iat, exp⟩ := by
  have giss : yajl_tree_get (some (payload_members iss sub aud jti oid iat exp)) (bytes "iss") =
    some (.string iss) := rfl
  have gsub : yajl_tree_get (some (payload_members iss sub aud jti oid iat exp)) (bytes "sub") =
    some (.string sub) := rfl
  have gaud : yajl_tree_get (some (payload_members iss sub aud jti oid iat exp)) (bytes "aud") =
    some (.string aud) := rfl
  have goid : yajl_tree_get (some (payload_members iss sub aud jti oid iat exp)) (bytes "oid") =
    some (.number oid) := rfl
  have giat : yajl_tree_get (some (payload_members iss sub aud jti oid iat exp)) (bytes "iat") =
    some (.number iat) := rfl
  have gexp : yajl_tree_get (some (payload_members iss sub aud jti oid iat exp)) (bytes "exp") =
    some (.number exp) := rfl
  simp only [parse_payload, hdec, htree, tree_string, tree_integer, giss, gsub, gaud, goid, giat,
    gexp, c_string_of_clean hiss, c_string_of_clean hsub, c_string_of_clean haud, bind,
    Except.bind, pure, Except.pure]

theorem jwt_verify_issued {jwt : Jwt} (t₁ t₂ : ℤ) (j : Jwt)
    (hkey : E.kore.base64_decode E.app_key = some raw) (hne : payload ≠ [])
    (hfits : 4 * payload.length < 2 ^ 64)
    (hparse : parse_payload E (text payload) = .ok jwt) :
    jwt_verify E t₁ t₂ (some (issued_token E raw payload)) j =
      .ok (decide (jwt.iat ≤ t₁ ∧ t₂ ≤ jwt.exp), jwt) := by
  have hfields : fields dot (issued_token E raw payload) = HEADER_ENCODED :: text payload ::
      text (E.hmac_sha256 raw (HEADER_ENCODED ++ [dot] ++ text payload)) :: fields dot [] := by
    rw [issued_token, fields_layout 0 0 (text_field _) (text_ne_nil hne) (text_field _)
      (mac_text_ne_nil raw _) (Or.inl rfl)]
  rw [verify_fields t₁ t₂ j rfl rfl hfields]
  simp only [check_signature_issued hkey hfits, hparse, bind, Except.bind, pure, Except.pure,
    if_false, Bool.true_eq_false]
  by_cases hiat : t₁ < jwt.iat
  · have hn : ¬ (jwt.iat ≤ t₁ ∧ t₂ ≤ jwt.exp) := by omega
    simp [hiat, hn]
  · by_cases hexp : t₂ > jwt.exp
    · have hn : ¬ (jwt.iat ≤ t₁ ∧ t₂ ≤ jwt.exp) := by omega
      simp [hiat, hexp, hn]
    · have hy : jwt.iat ≤ t₁ ∧ t₂ ≤ jwt.exp := by omega
      simp [hiat, hexp, hy]

end Verify

/-- Tokens that are returned are accepted exactly during the session lifetime and carry their
claims; a token is returned exactly when the expiry time and the buffer size fit their types. -/
theorem jwt_round_trip (E : Library) {raw iss sub aud : Bytes} (now : ℤ) (jti : Cuuid) (jwt : Jwt)
    (hkey : E.kore.base64_decode E.app_key = some raw)
    (hiss : E.app_domainname = some iss) (hsub : jwt.sub = some sub) (haud : jwt.aud = some aud)
    (hiss0 : 0 ∉ iss) (hsub0 : 0 ∉ sub) (haud0 : 0 ∉ aud)
    (hyajl : YajlInverts E (issued_members E now jti jwt iss sub aud)) :
    (∀ token jwt', jwt_token_new E now jti jwt = .ok (token, jwt') →
      ∀ t₁ t₂ j, ∃ accepted j', jwt_verify E t₁ t₂ (some token) j = .ok (accepted, j') ∧
        (accepted = true ↔ now ≤ t₁ ∧ t₂ ≤ now + E.app_session_lifetime) ∧
        j' = ⟨some iss, some sub, some aud, jwt.oid, now, now + E.app_session_lifetime⟩) ∧
    ((∃ token jwt', jwt_token_new E now jti jwt = .ok (token, jwt')) ↔
      long_long (now + E.app_session_lifetime) = .ok (now + E.app_session_lifetime) ∧
      4 * (E.yajl_gen_map (issued_members E now jti jwt iss sub aud)).length < 2 ^ 64) := by
  refine ⟨?_, ?_, ?_⟩
  · intro token jwt' h t₁ t₂ j
    obtain ⟨_, hfits, rfl⟩ := jwt_token_new_ok hkey hiss hsub haud h
    have hparse := parse_payload_members hiss0 hsub0 haud0
      (decode_payload_text hyajl.gen_clean hfits) hyajl.parse_gen
    refine ⟨_, _, jwt_verify_issued t₁ t₂ j hkey hyajl.gen_ne_nil hfits hparse, ?_, rfl⟩
    exact decide_eq_true_iff
  · rintro ⟨token, jwt', h⟩
    obtain ⟨hexp, hfits, _⟩ := jwt_token_new_ok hkey hiss hsub haud h
    exact ⟨hexp, hfits⟩
  · rintro ⟨hexp, hfits⟩
    exact jwt_token_new_eq hkey hiss hsub haud hexp hfits

theorem jwt_round_trip_reference :
    (∃ token jwt', jwt_token_new reference 1000 reference_jti reference_jwt = .ok (token, jwt') ∧
      ∃ j', jwt_verify reference 1000 1060 (some token) reference_jwt = .ok (true, j')) := by
  obtain ⟨hverify, hissue⟩ := @jwt_round_trip reference (bytes "A") (bytes "app.local")
    (bytes "alice") (bytes "web") 1000 reference_jti reference_jwt (by decide) rfl rfl rfl
    (by decide) (by decide) (by decide)
    ⟨by decide +kernel, by decide +kernel, by decide +kernel⟩
  obtain ⟨token, jwt', h⟩ := hissue.mpr ⟨by decide, by decide +kernel⟩
  obtain ⟨accepted, j', hv, hiff, _⟩ := hverify token jwt' h 1000 1060 reference_jwt
  obtain rfl : accepted = true := hiff.mpr ⟨by decide, by decide⟩
  exact ⟨token, jwt', h, j', hv⟩

end JwtRoundTrip
