import Ayahesa.Base64urlCodec
import Ayahesa.KoreApi

/-! # JSON web tokens

`jwt.c` issues tokens and checks them with separate code. The JSON library, the message
authentication code and the settings are what a `Library` provides; the clock is read twice
during a check, so a check takes two readings. -/
namespace JwtToken

open CMemory KoreApi DelimitedFields Base64urlCodec

/-- A member of the parsed object; a number carries what yajl stores in `u.number.i`. -/
inductive YajlVal where
  | string (s : Bytes)
  | number (i : ℤ)
  | other
  deriving DecidableEq, Repr

abbrev Members := List (Bytes × YajlVal)

structure Library where
  kore : Kore
  hmac_sha256 : Bytes → Bytes → Bytes
  hmac_sha256_length : ∀ key data, (hmac_sha256 key data).length = 32
  /-- The text generated between opening and closing the map. -/
  yajl_gen_map : Members → Bytes
  /-- The members of the root object, if the text is a JSON object. -/
  yajl_tree_parse : Bytes → Option Members
  app_key : Bytes
  app_domainname : Option Bytes
  app_session_lifetime : ℤ

structure Jwt where
  iss : Option Bytes
  sub : Option Bytes
  aud : Option Bytes
  oid : ℤ
  iat : ℤ
  exp : ℤ
  deriving DecidableEq, Repr

structure Cuuid where
  time_low : UInt64
  time_mid : UInt16
  time_hi_and_version : UInt16
  clock_seq_hi_and_reserved : UInt8
  clock_seq_low : UInt8
  node : Vector UInt8 6

def HEADER_ENCODED : Bytes := bytes "eyJhbGciOiJIUzI1NiIsInR5cCI6IkpXVCJ9"

def header_encoded_length : ℕ := 36

def QUID_FULLLEN : ℕ := 38

def dot : UInt8 := 46

/-- `%.*x` -/
def hex (precision n : ℕ) : Bytes :=
  ((Nat.toDigits 16 n).map fun c => c.toNat.toUInt8).leftpad precision 48

def quid_tostring (u : Cuuid) : Bytes :=
  (bytes "\x7b" ++ hex 8 u.time_low.toNat ++ bytes "-" ++ hex 4 u.time_mid.toNat ++ bytes "-" ++
    hex 4 u.time_hi_and_version.toNat ++ bytes "-" ++ hex 2 u.clock_seq_hi_and_reserved.toNat ++
    hex 2 u.clock_seq_low.toNat ++ bytes "-" ++
    (u.node.toList.map fun b => hex 2 b.toNat).flatten ++ bytes "\x7d").take QUID_FULLLEN

section Library

variable (E : Library)

/-- Using a key that could not be decoded means using a length that was never set. -/
def decoded_key : C Bytes :=
  match E.kore.base64_decode E.app_key with
  | some rawkey => .ok rawkey
  | none => .error .uninitialised

def not_null (p : Option Bytes) : C Bytes :=
  match p with
  | some s => .ok s
  | none => .error .nullPointer

def payload_members (issuer sub aud jti : Bytes) (oid issued_at expire_at : ℤ) : Members := [
  (bytes "iss", .string issuer), (bytes "sub", .string sub), (bytes "oid", .number oid),
  (bytes "aud", .string aud), (bytes "iat", .number issued_at), (bytes "exp", .number expire_at),
  (bytes "jti", .string jti)]

def generate_payload (now : ℤ) (jti : Cuuid) (jwt : Jwt) : C (Bytes × ℕ × Jwt) := do
  let issued_at := now
  let expire_at ← long_long (issued_at + E.app_session_lifetime)
  let issuer ← not_null E.app_domainname
  let sub ← not_null jwt.sub
  let aud ← not_null jwt.aud
  let payload := E.yajl_gen_map
    (payload_members issuer sub aud (quid_tostring jti) jwt.oid issued_at expire_at)
  let (encoded, payload_encoded_length) ← base64url_encode payload
  let payload_encoded ← fill (calloc (size_t (4 * payload.length) / 3 + 2)) encoded
  return (payload_encoded, payload_encoded_length, { jwt with iat := issued_at, exp := expire_at })

def sign_payload (key data : Bytes) : C (Bytes × ℕ) := do
  let data ← cstr data 0
  let mac := E.hmac_sha256 key data
  let _signature ← fill (calloc 36) mac
  let (encoded, signature_encoded_length) ← base64url_encode mac
  let signature_encoded ← fill (calloc (size_t (4 * mac.length) / 3 + 2)) encoded
  return (signature_encoded, signature_encoded_length)

def jwt_token_new (now : ℤ) (jti : Cuuid) (jwt : Jwt) : C (Bytes × Jwt) := do
  let rawkey ← decoded_key E
  let (payload_encoded, payload_encoded_length, jwt) ← generate_payload E now jti jwt
  let payload ← cstr payload_encoded 0
  let data ← sprintf (calloc (size_t (header_encoded_length + 1 + payload_encoded_length + 1)))
    (HEADER_ENCODED ++ [dot] ++ payload)
  let (signature_encoded, signature_encoded_length) ← sign_payload E rawkey data
  let signature ← cstr signature_encoded 0
  let token ← sprintf (calloc (size_t (header_encoded_length + 1 + payload_encoded_length + 1 +
    signature_encoded_length + 1))) (HEADER_ENCODED ++ [dot] ++ payload ++ [dot] ++ signature)
  let token ← cstr token 0
  return (token, jwt)

def check_signature (header payload hash : Bytes) : C Bool := do
  let rawkey ← decoded_key E
  let data ← sprintf (calloc (size_t (header.length + 1 + payload.length + 1)))
    (header ++ [dot] ++ payload)
  let (signature_encoded, _) ← sign_payload E rawkey data
  let signature ← cstr signature_encoded 0
  return hash = signature

/-- Members are compared and returned as C strings; the first member of a name counts. -/
def yajl_tree_get (tree : Option Members) (name : Bytes) : Option YajlVal :=
  (tree.bind fun members => members.find? fun m => c_string m.1 = name).map Prod.snd

def tree_string (tree : Option Members) (name : Bytes) : C Bytes :=
  match yajl_tree_get tree name with
  | some (.string s) => .ok (c_string s)
  | _ => .error .nullPointer

def tree_integer (tree : Option Members) (name : Bytes) : C ℤ :=
  match yajl_tree_get tree name with
  | some (.number i) => .ok i
  | _ => .error .nullPointer

/-- The first half of `parse_payload`: the decoded bytes with the NUL put behind them. -/
def decode_payload (payload : Bytes) : C Bytes := do
  let (decoded, payload_decoded_length) ← base64url_decode payload
  let payload_decoded ← fill (calloc (size_t (3 * payload.length) / 4 + 1)) decoded
  match payload_decoded_length with
  | none => .error .uninitialised
  | some n => do
    let payload_decoded ← store payload_decoded n 0
    cstr payload_decoded 0

def parse_payload (payload : Bytes) : C Jwt := do
  let payload_decoded ← decode_payload payload
  let tree := E.yajl_tree_parse payload_decoded
  let iss ← tree_string tree (bytes "iss")
  let sub ← tree_string tree (bytes "sub")
  let aud ← tree_string tree (bytes "aud")
  let oid ← tree_integer tree (bytes "oid")
  let iat ← tree_integer tree (bytes "iat")
  let exp ← tree_integer tree (bytes "exp")
  return { iss := some iss, sub := some sub, aud := some aud, oid := oid, iat := iat, exp := exp }

/-- The result and the structure that the caller passed, filled in as far as the check got. -/
def jwt_verify (t₁ t₂ : ℤ) (token : Option Bytes) (jwt : Jwt) : C (Bool × Jwt) := do
  let token ← not_null token
  if token.getD 0 0 ≠ 101 ∨ token.getD 1 0 ≠ 121 then return (false, jwt)
  else match E.kore.split_string token dot 4 with
  | header :: payload :: hash :: _ =>
    if header ≠ HEADER_ENCODED then return (false, jwt)
    else do
      let matched ← check_signature E header payload hash
      if matched = false then return (false, jwt)
      else do
        let jwt ← parse_payload E payload
        if t₁ < jwt.iat then return (false, jwt)
        else if t₂ > jwt.exp then return (false, jwt)
        else return (true, jwt)
  | _ => return (false, jwt)

end Library

theorem HEADER_ENCODED_length : HEADER_ENCODED.length = header_encoded_length := by decide

theorem HEADER_ENCODED_clean : 0 ∉ HEADER_ENCODED := by decide

theorem text_clean (x : Bytes) : 0 ∉ text x := fun h => absurd (text_mem h) (by decide)

theorem not_null_ok {p : Option Bytes} {s : Bytes} (h : not_null p = .ok s) : p = some s := by
  cases p with
  | none => cases h
  | some t => rw [Except.ok.inj h]

theorem sprintf_cstr {n : ℕ} {t d : Bytes} (h : sprintf (calloc n) t = .ok d) (h0 : 0 ∉ t) :
    cstr d 0 = .ok t := by
  obtain ⟨_, rfl⟩ := fill_ok h
  rw [List.append_assoc]
  exact cstr_start _ h0

section Spec

variable {E : Library}

theorem decoded_key_ok {raw : Bytes} (h : decoded_key E = .ok raw) :
    E.kore.base64_decode E.app_key = some raw := by
  unfold decoded_key at h
  split at h
  · rw [← Except.ok.inj h]
    assumption
  · cases h

theorem decoded_key_eq {raw : Bytes} (h : E.kore.base64_decode E.app_key = some raw) :
    decoded_key E = .ok raw := by simp [decoded_key, h]

theorem sign_payload_eq (key : Bytes) {data d : Bytes} (h : cstr data 0 = .ok d) :
    sign_payload E key data =
      .ok (text (E.hmac_sha256 key d) ++ [0], (text (E.hmac_sha256 key d)).length) := by
  have hmac := E.hmac_sha256_length key d
  have hlen := text_length (E.hmac_sha256 key d)
  have hsize : size_t (4 * (E.hmac_sha256 key d).length) / 3 + 2 = 44 := by rw [hmac]; rfl
  have h36 : fill (calloc 36) (E.hmac_sha256 key d) = .ok _ :=
    fill_of_le (by rw [hmac, calloc, List.length_replicate]; decide)
  have h44 : fill (calloc 44) (text (E.hmac_sha256 key d) ++ [0]) = .ok _ :=
    fill_of_le (by simp [calloc]; omega)
  have hdrop : (calloc 44).drop (text (E.hmac_sha256 key d) ++ [0]).length = [] := by
    apply List.drop_eq_nil_of_le
    simp [calloc]
    omega
  simp only [sign_payload, h, h36, base64url_encode_eq (x := E.hmac_sha256 key d) (by omega),
    hsize, h44, hdrop, bind, Except.bind, pure, Except.pure, List.append_nil]

theorem signed_data_clean {header payload : Bytes} (hh : 0 ∉ header) (hp : 0 ∉ payload) :
    0 ∉ header ++ [dot] ++ payload := by
  simp only [List.mem_append, List.mem_singleton, not_or]
  exact ⟨⟨hh, by decide⟩, hp⟩

theorem check_signature_ok {header payload hash : Bytes} {b : Bool}
    (hh : 0 ∉ header) (hp : 0 ∉ payload) (h : check_signature E header payload hash = .ok b) :
    ∃ raw, E.kore.base64_decode E.app_key = some raw ∧
      b = decide (hash = text (E.hmac_sha256 raw (header ++ [dot] ++ payload))) := by
  obtain ⟨raw, hkey, h⟩ := bind_ok h
  obtain ⟨data, hdata, h⟩ := bind_ok h
  have hsign := sign_payload_eq (E := E) raw (sprintf_cstr hdata (signed_data_clean hh hp))
  have hcstr := cstr_start [] (text_clean (E.hmac_sha256 raw (header ++ [dot] ++ payload)))
  simp only [hsign, hcstr, bind, Except.bind, pure, Except.pure] at h
  exact ⟨raw, decoded_key_ok hkey, (Except.ok.inj h).symm⟩

theorem decode_payload_ok {payload decoded : Bytes} (h : decode_payload payload = .ok decoded) :
    ∃ out n, base64url_decode payload = .ok (out, some n) ∧ decoded = c_string (out.take n) := by
  obtain ⟨⟨out, len⟩, hdec, h⟩ := bind_ok h
  obtain ⟨buf, hfill, h⟩ := bind_ok h
  cases len with
  | none => cases h
  | some n =>
    obtain ⟨buf', hstore, h⟩ := bind_ok h
    refine ⟨out, n, hdec, ?_⟩
    obtain ⟨_, rfl⟩ := fill_ok hfill
    obtain ⟨_, rfl⟩ := store_ok hstore
    -- The NUL goes behind the decoded bytes or cuts them; the rest of the buffer is zero.
    rw [cstr_eq_c_string h, c_string_append_zero]
    simp only [calloc, List.drop_replicate, List.take_append, List.take_replicate,
      c_string_append_zeros]

structure Claims (tree : Option Members) (jwt : Jwt) : Prop where
  iss : ∃ s, yajl_tree_get tree (bytes "iss") = some (.string s) ∧ jwt.iss = some (c_string s)
  sub : ∃ s, yajl_tree_get tree (bytes "sub") = some (.string s) ∧ jwt.sub = some (c_string s)
  aud : ∃ s, yajl_tree_get tree (bytes "aud") = some (.string s) ∧ jwt.aud = some (c_string s)
  oid : yajl_tree_get tree (bytes "oid") = some (.number jwt.oid)
  iat : yajl_tree_get tree (bytes "iat") = some (.number jwt.iat)
  exp : yajl_tree_get tree (bytes "exp") = some (.number jwt.exp)

theorem tree_string_ok {tree : Option Members} {name t : Bytes}
    (h : tree_string tree name = .ok t) :
    ∃ s, yajl_tree_get tree name = some (.string s) ∧ t = c_string s := by
  unfold tree_string at h
  split at h
  · next s hs => exact ⟨s, hs, (Except.ok.inj h).symm⟩
  · cases h

theorem tree_integer_ok {tree : Option Members} {name : Bytes} {i : ℤ}
    (h : tree_integer tree name = .ok i) : yajl_tree_get tree name = some (.number i) := by
  unfold tree_integer at h
  split at h
  · next j hj => rw [hj, Except.ok.inj h]
  · cases h

theorem parse_payload_ok {payload : Bytes} {jwt : Jwt} (h : parse_payload E payload = .ok jwt) :
    ∃ decoded, decode_payload payload = .ok decoded ∧ Claims (E.yajl_tree_parse decoded) jwt := by
  obtain ⟨decoded, hdec, h⟩ := bind_ok h
  obtain ⟨iss, hiss, h⟩ := bind_ok h
  obtain ⟨sub, hsub, h⟩ := bind_ok h
  obtain ⟨aud, haud, h⟩ := bind_ok h
  obtain ⟨oid, hoid, h⟩ := bind_ok h
  obtain ⟨iat, hiat, h⟩ := bind_ok h
  obtain ⟨exp, hexp, h⟩ := bind_ok h
  obtain rfl := Except.ok.inj h
  obtain ⟨s, hs, rfl⟩ := tree_string_ok hiss
  obtain ⟨u, hu, rfl⟩ := tree_string_ok hsub
  obtain ⟨v, hv, rfl⟩ := tree_string_ok haud
  exact ⟨decoded, hdec, ⟨s, hs, rfl⟩, ⟨u, hu, rfl⟩, ⟨v, hv, rfl⟩, tree_integer_ok hoid,
    tree_integer_ok hiat, tree_integer_ok hexp⟩

/-- What acceptance rests on: only the first three fields of the token count. -/
structure Accepted (E : Library) (t₁ t₂ : ℤ) (token raw P S : Bytes) (jwt : Jwt) : Prop where
  fields : ∃ more, fields dot token = HEADER_ENCODED :: P :: S :: more
  head : token.getD 0 0 = 101
  key : E.kore.base64_decode E.app_key = some raw
  signature : S = text (E.hmac_sha256 raw (HEADER_ENCODED ++ [dot] ++ P))
  parsed : parse_payload E P = .ok jwt
  active : jwt.iat ≤ t₁
  unexpired : t₂ ≤ jwt.exp

/-- With the header in front, the verdict is that of the signature and of the claims. -/
theorem verify_fields {token P S : Bytes} {more : List Bytes} (t₁ t₂ : ℤ) (jwt : Jwt)
    (h0 : token.getD 0 0 = 101) (h1 : token.getD 1 0 = 121)
    (hfields : fields dot token = HEADER_ENCODED :: P :: S :: more) :
    jwt_verify E t₁ t₂ (some token) jwt = (do
      let matched ← check_signature E HEADER_ENCODED P S
      if matched = false then return (false, jwt)
      else do
        let jwt ← parse_payload E P
        if t₁ < jwt.iat then return (false, jwt)
        else if t₂ > jwt.exp then return (false, jwt)
        else return (true, jwt)) := by
  have hsplit : E.kore.split_string token dot 4 = [HEADER_ENCODED, P, S] := by
    rw [E.kore.split_string_fields, hfields]
    rfl
  simp only [jwt_verify, not_null, h0, h1, hsplit, ne_eq, not_true, or_self, if_false, bind,
    Except.bind]

theorem jwt_verify_refused {token : Bytes} (t₁ t₂ : ℤ) (jwt : Jwt)
    (h : ¬ ∃ P S more, token.getD 0 0 = 101 ∧ token.getD 1 0 = 121 ∧
      fields dot token = HEADER_ENCODED :: P :: S :: more) :
    jwt_verify E t₁ t₂ (some token) jwt = .ok (false, jwt) := by
  by_cases hstart : token.getD 0 0 ≠ 101 ∨ token.getD 1 0 ≠ 121
  · simp only [jwt_verify, not_null, hstart, if_true, bind, Except.bind]
    rfl
  obtain ⟨h0, h1⟩ := not_or.mp hstart
  simp only [jwt_verify, not_null, hstart, if_false, bind, Except.bind,
    E.kore.split_string_fields]
  rcases hfields : fields dot token with _ | ⟨header, _ | ⟨P, _ | ⟨S, more⟩⟩⟩
  · rfl
  · rfl
  · rfl
  · have hheader : header ≠ HEADER_ENCODED := by
      rintro rfl
      exact h ⟨P, S, more, not_not.mp h0, not_not.mp h1, hfields⟩
    simp only [List.take_succ_cons, hheader, ne_eq, not_false_eq_true, if_true]
    rfl

theorem payload_clean {token P S : Bytes} {more : List Bytes} (h0 : 0 ∉ token)
    (hfields : fields dot token = HEADER_ENCODED :: P :: S :: more) : 0 ∉ P := by
  intro hmem
  have hP : P ∈ fields dot token := by simp [hfields]
  exact h0 ((mem_fields hP).2.2.subset hmem)

theorem jwt_verify_accepts {t₁ t₂ : ℤ} {token : Bytes} {jwt jwt' : Jwt} (h0 : 0 ∉ token)
    (h : jwt_verify E t₁ t₂ (some token) jwt = .ok (true, jwt')) :
    ∃ raw P S, Accepted E t₁ t₂ token raw P S jwt' := by
  by_cases hreach : ∃ P S more, token.getD 0 0 = 101 ∧ token.getD 1 0 = 121 ∧
      fields dot token = HEADER_ENCODED :: P :: S :: more
  · obtain ⟨P, S, more, h101, h121, hfields⟩ := hreach
    rw [verify_fields t₁ t₂ jwt h101 h121 hfields] at h
    obtain ⟨matched, hcheck, h⟩ := bind_ok h
    obtain ⟨raw, hkey, hmatched⟩ :=
      check_signature_ok HEADER_ENCODED_clean (payload_clean h0 hfields) hcheck
    split at h
    · cases h
    next ht =>
    have hsig : S = _ := of_decide_eq_true (hmatched.symm.trans (by simpa using ht))
    obtain ⟨parsed, hparse, h⟩ := bind_ok h
    split at h
    · cases h
    split at h
    · cases h
    next hiat hexp =>
    obtain rfl : parsed = jwt' := (Prod.mk.inj (Except.ok.inj h)).2
    exact ⟨raw, P, S, ⟨more, hfields⟩, h101, hkey, hsig, hparse, by omega, by omega⟩
  · rw [jwt_verify_refused t₁ t₂ jwt hreach] at h
    cases h

end Spec

/-! ## A library for one token -/

def reference_jti : Cuuid where
  time_low := 1
  time_mid := 2
  time_hi_and_version := 3
  clock_seq_hi_and_reserved := 4
  clock_seq_low := 5
  node := #v[6, 7, 8, 9, 10, 11]

def reference_members : Members :=
  payload_members (bytes "app.local") (bytes "alice") (bytes "web") (quid_tostring reference_jti)
    7 1000 1060

def reference_payload : Bytes := bytes ("\x7b\"iss\":\"app.local\",\"sub\":\"alice\",\"oid\":7," ++
  "\"aud\":\"web\",\"iat\":1000,\"exp\":1060," ++
  "\"jti\":\"\x7b00000001-0002-0003-0405-060708090a0b\x7d\"\x7d")

def reference_P : Bytes := bytes ("eyJpc3MiOiJhcHAubG9jYWwiLCJzdWIiOiJhbGljZSIsIm9pZCI6Nywi" ++
  "YXVkIjoid2ViIiwiaWF0IjoxMDAwLCJleHAiOjEwNjAsImp0aSI6InswMDAwMDAwMS0wMDAyLTAwMDMtMDQwNS0w" ++
  "NjA3MDgwOTBhMGJ9In0")

def reference_S : Bytes := bytes "0c7sAU3u3NU_rtpLlonE01Z71R5wDKai-I-nzHNBYkQ"

def reference_mac : Bytes := [209, 206, 236, 1, 77, 238, 220, 213, 63, 174, 218, 75, 150, 137, 196,
  211, 86, 123, 213, 30, 112, 12, 166, 162, 248, 143, 167, 204, 115, 65, 98, 68]

/-- The values of the real functions on the payload above under the key `A`. -/
def reference : Library where
  kore := KoreApi.reference
  hmac_sha256 key data :=
    if key = bytes "A" ∧ data = HEADER_ENCODED ++ [dot] ++ reference_P then reference_mac
    else List.replicate 32 0
  hmac_sha256_length key data := by split <;> rfl
  yajl_gen_map members := if members = reference_members then reference_payload else []
  yajl_tree_parse text := if text = reference_payload then some reference_members else none
  app_key := bytes "QQ=="
  app_domainname := some (bytes "app.local")
  app_session_lifetime := 60

def reference_jwt : Jwt where
  iss := some (bytes "app.local")
  sub := some (bytes "alice")
  aud := some (bytes "web")
  oid := 7
  iat := 1000
  exp := 1060

end JwtToken
