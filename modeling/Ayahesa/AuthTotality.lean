import Ayahesa.AppStart
import Ayahesa.BasicAuth
import Ayahesa.HttpView
import Ayahesa.JwtRoundTrip

/-! # Which headers get a verdict

Both middlewares cut the Authorization header at blanks and hand the second piece on without a
look at whether there is one. Each call is followed up to its verdict, the report included. -/
namespace AuthTotality

open CMemory CompatStrings KoreApi HttpRequest DelimitedFields Base64urlCodec LoopIteration
open JwtToken JwtRoundTrip AuthMiddleware BasicAuth TreeStore AppConfig AppStart ViewPasses
open HttpView IntegerFormatting
open ViewPredefined hiding text

def report_tree (code : ℤ) (msg : Bytes) : Proc Tree := do
  let session := fresh 0
  let session ← TreeStore.tree_put_str session (bytes "background-clr") (bytes "#ed143d")
  let session ← TreeStore.tree_put_str session (bytes "title") msg
  let text ← lift (itoa_string StaticBuf.zero code)
  let session ← TreeStore.tree_put_str session (bytes "code") text
  TreeStore.tree_put_str session (bytes "msg") msg

def http_report (K : Kore) (S : Symbols) (V : Surroundings) (n : ℕ)
    (hdlr_extra : Option RequestData) (code : ℤ) (msg : Bytes) :
    Option (Proc (Reply × RequestData)) :=
  andThen (some (report_tree code msg)) fun session =>
  let extra := { hdlr_extra.getD RequestData.zero with session := some ⟨session.ptr⟩ }
  andThen ((http_view K S { V with hdlr_extra := some extra } n code (bytes "report")).map lift)
    fun reply => some (.ok (reply, extra))

/-- What a call of the middleware leaves; request data that was freed is NULL. -/
structure Served where
  outcome : Outcome
  hdlr_extra : Option RequestData
  response_headers : List (Bytes × Bytes)
  reply : Option Reply
  basic_auth_count : ℕ
  deriving DecidableEq, Repr

def user_part (basic_auth_settings : Bytes) : C Bytes := do
  let principal := basic_auth_settings ++ [0]
  match ← strchr principal 0 58 with
  | none => .error .nullPointer
  | some split =>
    let principal ← store principal split 0
    cstr principal 0

def middleware_auth_basic (K : Kore) (S : Symbols) (V : Surroundings) (n : ℕ) (app : App)
    (header_auth : Option Bytes) (hdlr_extra : Option RequestData) (basic_auth_count : ℕ) :
    Option (Proc Served) :=
  let extra := hdlr_extra.getD RequestData.zero
  andThen (some (lift (app_basic_auth app))) fun basic_auth_settings =>
  match basic_auth_settings with
  | none =>
    andThen (http_report K S V n (some extra) 404 (bytes "Not Found")) fun (reply, _) =>
    some (.ok ⟨.error, none, [], some reply, basic_auth_count⟩)
  | some auth =>
    andThen (some (lift (http_basic_auth K header_auth auth basic_auth_count))) fun attempt =>
    if attempt.result = 0 then
      andThen (http_report K S V n (some extra) 401 (bytes "Unauthorized")) fun (reply, _) =>
      some (.ok ⟨.error, none, [(bytes "www-authenticate", bytes "Basic realm=\"Baisc auth\"")],
        some reply, attempt.basic_auth_count⟩)
    else
      andThen (some (lift (user_part auth))) fun principal =>
      some (.ok ⟨.ok, some { extra with object_id := 1, principal := some principal }, [], none,
        attempt.basic_auth_count⟩)

/-! ## Basic authentication -/

theorem user_part_eq {auth : Bytes} (h0 : 0 ∉ auth) :
    user_part auth =
      if 58 ∈ auth then .ok (auth.takeWhile (· ≠ 58)) else .error .nullPointer := by
  by_cases h : 58 ∈ auth
  · obtain ⟨x, y, rfl, hx⟩ := List.eq_append_cons_of_mem h
    have hx0 : 0 ∉ x := fun hmem => h0 (List.mem_append_left _ hmem)
    have hfound := @strchr_found [] x 58 (y ++ [0]) hx hx0
    have hstore := store_at x 58 (y ++ [0]) 0
    have hread := cstr_start (y ++ [0]) hx0
    have hfront : (x ++ 58 :: y).takeWhile (· ≠ 58) = x := by
      rw [List.takeWhile_append_of_pos fun c hc => by
        simpa using fun heq : c = 58 => hx (heq ▸ hc)]
      simp
    rw [List.nil_append, List.length_nil, Nat.zero_add] at hfound
    rw [if_pos h, hfront]
    simp only [user_part, List.append_assoc, List.cons_append, hfound, hstore, hread, bind,
      Except.bind]
  · have hended := @strchr_ended [] auth 58 [] h h0 (by decide)
    rw [List.nil_append, List.length_nil] at hended
    rw [if_neg h]
    simp only [user_part, hended, bind, Except.bind]

theorem increment_ok_iff {basic_auth_count : ℕ} :
    (∃ attempt, failed basic_auth_count = .ok attempt) ↔ basic_auth_count < 2 ^ 31 - 1 := by
  unfold failed increment
  by_cases h : basic_auth_count < 2 ^ 31 - 1
  · rw [if_pos h]
    exact iff_of_true ⟨_, rfl⟩ h
  · rw [if_neg h]
    exact iff_of_false (fun ⟨_, hcall⟩ => nomatch hcall) h

theorem admissible_of_ok {K : Kore} {header : Option Bytes} {auth : Bytes} {basic_auth_count : ℕ}
    {attempt : Attempt} (h : http_basic_auth K header auth basic_auth_count = .ok attempt) :
    Admissible K header := by
  intro htokens
  obtain ⟨tokens, htokens⟩ := Option.ne_none_iff_exists'.mp htokens
  rw [http_basic_auth_basic K auth _ htokens] at h
  obtain ⟨undecode, hdecode, -⟩ := bind_ok h
  unfold kore_base64_decode at hdecode
  rw [credentials, htokens, Option.bind_some]
  cases hcode : tokens.head? with
  | none => simp [hcode] at hdecode
  | some code =>
    cases hresult : K.base64_decode code with
    | none => simp [hcode, hresult] at hdecode
    | some undecode => simp [hresult]

/-- A header gets a verdict unless it is of scheme Basic and its second token is missing or
rejected by the decoder. -/
theorem http_basic_auth_returns_iff {K : Kore} {header : Option Bytes} {auth : Bytes}
    {basic_auth_count : ℕ} (h0 : 0 ∉ auth) :
    (∃ attempt, http_basic_auth K header auth basic_auth_count = .ok attempt) ↔
      Admissible K header ∧
        (credentials K header = some auth ∨ basic_auth_count < 2 ^ 31 - 1) := by
  constructor
  · rintro ⟨attempt, h⟩
    have hadm := admissible_of_ok h
    refine ⟨hadm, ?_⟩
    rw [http_basic_auth_eq _ h0 hadm] at h
    by_cases hcred : credentials K header = some auth
    · exact Or.inl hcred
    · rw [if_neg hcred] at h
      exact Or.inr (increment_ok_iff.mp ⟨attempt, h⟩)
  · rintro ⟨hadm, hcount⟩
    rw [http_basic_auth_eq _ h0 hadm]
    by_cases hcred : credentials K header = some auth
    · exact ⟨_, if_pos hcred⟩
    · rw [if_neg hcred]
      exact increment_ok_iff.mpr (hcount.resolve_left hcred)

def Reported (K : Kore) (S : Symbols) (V : Surroundings) (hdlr_extra : Option RequestData)
    (code : ℤ) (msg : Bytes) : Prop :=
  ∃ n reply, http_report K S V n (some (hdlr_extra.getD RequestData.zero)) code msg =
    some (.ok reply)

/-- When the middleware gets to a verdict under the given settings. -/
def BasicServed (K : Kore) (S : Symbols) (V : Surroundings) (settings : Option Bytes)
    (header : Option Bytes) (hdlr_extra : Option RequestData) (basic_auth_count : ℕ) : Prop :=
  match settings with
  | none => Reported K S V hdlr_extra 404 (bytes "Not Found")
  | some auth =>
    Admissible K header ∧
      if credentials K header = some auth then 58 ∈ auth
      else basic_auth_count < 2 ^ 31 - 1 ∧ Reported K S V hdlr_extra 401 (bytes "Unauthorized")

section Settings

variable {K : Kore} {S : Symbols} {V : Surroundings} {app : App} {header : Option Bytes}
  {hdlr_extra : Option RequestData} {basic_auth_count : ℕ}

theorem auth_basic_unset_iff (hget : app_basic_auth app = .ok none) :
    (∃ n served, middleware_auth_basic K S V n app header hdlr_extra basic_auth_count =
      some (.ok served)) ↔ BasicServed K S V none header hdlr_extra basic_auth_count := by
  simp only [middleware_auth_basic, hget, lift_ok]
  constructor
  · rintro ⟨n, served, h⟩
    obtain ⟨_, hnone, h⟩ := andThen_eq_ok_iff.mp h
    cases hnone
    obtain ⟨reply, hreply, -⟩ := andThen_eq_ok_iff.mp h
    exact ⟨n, reply, hreply⟩
  · rintro ⟨n, reply, hreply⟩
    exact ⟨n, andThen_returns rfl (andThen_returns hreply ⟨_, rfl⟩)⟩

theorem served_of_auth_basic {auth : Bytes} {n : ℕ} {served : Served}
    (hget : app_basic_auth app = .ok (some auth)) (h0 : 0 ∉ auth)
    (h : middleware_auth_basic K S V n app header hdlr_extra basic_auth_count =
      some (.ok served)) :
    BasicServed K S V (some auth) header hdlr_extra basic_auth_count := by
  simp only [middleware_auth_basic, hget, lift_ok] at h
  obtain ⟨_, hsome, h⟩ := andThen_eq_ok_iff.mp h
  cases hsome
  obtain ⟨attempt, hattempt, h⟩ := andThen_eq_ok_iff.mp h
  have hcall := lift_eq_ok.mp (Option.some.inj hattempt)
  have hadm := admissible_of_ok hcall
  refine ⟨hadm, ?_⟩
  rw [http_basic_auth_eq _ h0 hadm] at hcall
  by_cases hcred : credentials K header = some auth
  · rw [if_pos hcred] at hcall ⊢
    obtain rfl := Except.ok.inj hcall
    obtain ⟨principal, hprincipal, -⟩ := andThen_eq_ok_iff.mp h
    have hpart := lift_eq_ok.mp (Option.some.inj hprincipal)
    rw [user_part_eq h0] at hpart
    by_contra hsplit
    rw [if_neg hsplit] at hpart
    cases hpart
  · rw [if_neg hcred] at hcall ⊢
    refine ⟨increment_ok_iff.mp ⟨attempt, hcall⟩, ?_⟩
    rw [if_pos (failed_result hcall)] at h
    obtain ⟨reply, hreply, -⟩ := andThen_eq_ok_iff.mp h
    exact ⟨n, reply, hreply⟩

theorem auth_basic_of_served {auth : Bytes} (hget : app_basic_auth app = .ok (some auth))
    (h0 : 0 ∉ auth) (h : BasicServed K S V (some auth) header hdlr_extra basic_auth_count) :
    ∃ n served, middleware_auth_basic K S V n app header hdlr_extra basic_auth_count =
      some (.ok served) := by
  simp only [middleware_auth_basic, hget, lift_ok]
  obtain ⟨hadm, hrest⟩ := h
  have hcall := @http_basic_auth_eq K header auth basic_auth_count h0 hadm
  by_cases hcred : credentials K header = some auth
  · rw [if_pos hcred] at hcall hrest
    have hpart := user_part_eq h0
    rw [if_pos hrest] at hpart
    refine ⟨0, andThen_returns rfl ?_⟩
    apply andThen_returns (congrArg some (lift_eq_ok.mpr hcall))
    exact andThen_returns (congrArg some (lift_eq_ok.mpr hpart)) ⟨_, rfl⟩
  · rw [if_neg hcred] at hcall hrest
    obtain ⟨hcount, n, reply, hreply⟩ := hrest
    obtain ⟨attempt, hattempt⟩ := increment_ok_iff.mpr hcount
    rw [hattempt] at hcall
    refine ⟨n, andThen_returns rfl ?_⟩
    apply andThen_returns (congrArg some (lift_eq_ok.mpr hcall))
    rw [if_pos (failed_result hattempt)]
    exact andThen_returns hreply ⟨_, rfl⟩

theorem auth_basic_settings_iff {settings : Option Bytes}
    (hget : app_basic_auth app = .ok settings) (hclean : ∀ auth, settings = some auth → 0 ∉ auth) :
    (∃ n served, middleware_auth_basic K S V n app header hdlr_extra basic_auth_count =
      some (.ok served)) ↔ BasicServed K S V settings header hdlr_extra basic_auth_count := by
  cases settings with
  | none => exact auth_basic_unset_iff hget
  | some auth =>
    have h0 := hclean auth rfl
    constructor
    · rintro ⟨n, served, h⟩
      exact served_of_auth_basic hget h0 h
    · exact auth_basic_of_served hget h0

end Settings

theorem middleware_auth_basic_returns_iff {K : Kore} {S : Symbols} {V : Surroundings} {app : App}
    {header : Option Bytes} {hdlr_extra : Option RequestData} {basic_auth_count : ℕ}
    (hclean : ∀ auth, app_basic_auth app = .ok (some auth) → 0 ∉ auth) :
    (∃ n served, middleware_auth_basic K S V n app header hdlr_extra basic_auth_count =
      some (.ok served)) ↔ ∃ settings, app_basic_auth app = .ok settings ∧
        BasicServed K S V settings header hdlr_extra basic_auth_count := by
  cases hget : app_basic_auth app with
  | error e =>
    apply iff_of_false
    · rintro ⟨n, served, h⟩
      rw [middleware_auth_basic, hget] at h
      cases h
    · rintro ⟨settings, h, -⟩
      cases h
  | ok settings =>
    rw [auth_basic_settings_iff hget fun auth h => hclean auth (h ▸ hget)]
    constructor
    · exact fun h => ⟨settings, rfl, h⟩
    · rintro ⟨_, h, hserved⟩
      cases h
      exact hserved

/-! ## Bearer tokens -/

section Bearer

variable {E : Library} {P S token : Bytes}

theorem check_signature_eq {header payload raw : Bytes} (hash : Bytes) (hh : 0 ∉ header)
    (hp : 0 ∉ payload) (hkey : E.kore.base64_decode E.app_key = some raw)
    (hfits : header.length + 1 + payload.length + 1 < 2 ^ 64) :
    check_signature E header payload hash =
      .ok (decide (hash = text (E.hmac_sha256 raw (header ++ [dot] ++ payload)))) := by
  have hclean := signed_data_clean hh hp
  have hroom : header.length + 1 + payload.length + 1 =
      (header ++ [dot] ++ payload).length + 1 := by
    simp only [List.length_append, List.length_singleton]
  obtain ⟨data, hdata⟩ := sprintf_fits hroom hfits
  have hsign := sign_payload_eq (E := E) raw (sprintf_cstr hdata hclean)
  have hread := cstr_start [] (text_clean (E.hmac_sha256 raw (header ++ [dot] ++ payload)))
  simp only [check_signature, decoded_key_eq hkey, hdata, hsign, hread, bind, Except.bind, pure,
    Except.pure]

/-- The buffer for the signed data is large enough only if its size does not wrap. -/
theorem check_signature_fits {header payload hash : Bytes} {matched : Bool}
    (h : check_signature E header payload hash = .ok matched) :
    header.length + 1 + payload.length + 1 < 2 ^ 64 := by
  obtain ⟨raw, -, h⟩ := bind_ok h
  obtain ⟨data, hdata, -⟩ := bind_ok h
  have hroom := (fill_ok hdata).1
  rw [calloc, List.length_replicate, size_t] at hroom
  simp only [List.length_append, List.length_singleton] at hroom
  have hlt := Nat.mod_lt (header.length + 1 + payload.length + 1) (show 0 < 2 ^ 64 by decide)
  omega

def Readable (E : Library) (P : Bytes) : Prop :=
  ∃ decoded jwt, decode_payload P = .ok decoded ∧ Claims (E.yajl_tree_parse decoded) jwt

theorem parse_payload_returns_iff : (∃ jwt, parse_payload E P = .ok jwt) ↔ Readable E P := by
  constructor
  · rintro ⟨jwt, h⟩
    obtain ⟨decoded, hdecode, hclaims⟩ := parse_payload_ok h
    exact ⟨decoded, jwt, hdecode, hclaims⟩
  · rintro ⟨decoded, jwt, hdecode, hclaims⟩
    obtain ⟨iss, hiss, -⟩ := hclaims.iss
    obtain ⟨sub, hsub, -⟩ := hclaims.sub
    obtain ⟨aud, haud, -⟩ := hclaims.aud
    simp only [parse_payload, hdecode, tree_string, tree_integer, hiss, hsub, haud, hclaims.oid,
      hclaims.iat, hclaims.exp, bind, Except.bind]
    exact ⟨_, rfl⟩

/-- A payload with a signature can be checked: the key decodes, and what was signed with it is
readable. -/
def Checkable (E : Library) (P S : Bytes) : Prop :=
  P.length + 38 < 2 ^ 64 ∧ ∃ raw, E.kore.base64_decode E.app_key = some raw ∧
    (S = text (E.hmac_sha256 raw (HEADER_ENCODED ++ [dot] ++ P)) → Readable E P)

def Verifiable (E : Library) (token : Bytes) : Prop :=
  token.getD 0 0 = 101 → token.getD 1 0 = 121 → ∀ P S more,
    fields dot token = HEADER_ENCODED :: P :: S :: more → Checkable E P S

theorem verify_fields_iff (t₁ t₂ : ℤ) (jwt : Jwt) {more : List Bytes} (hP : 0 ∉ P)
    (h101 : token.getD 0 0 = 101) (h121 : token.getD 1 0 = 121)
    (hfields : fields dot token = HEADER_ENCODED :: P :: S :: more) :
    (∃ r, jwt_verify E t₁ t₂ (some token) jwt = .ok r) ↔ Checkable E P S := by
  have hlen : HEADER_ENCODED.length = 36 := HEADER_ENCODED_length
  rw [verify_fields t₁ t₂ jwt h101 h121 hfields]
  constructor
  · rintro ⟨r, h⟩
    obtain ⟨matched, hcheck, h⟩ := bind_ok h
    have hfits := check_signature_fits hcheck
    obtain ⟨raw, hkey, rfl⟩ := check_signature_ok HEADER_ENCODED_clean hP hcheck
    refine ⟨by omega, raw, hkey, ?_⟩
    intro hsig
    rw [decide_eq_true hsig, if_neg (by decide)] at h
    obtain ⟨parsed, hparse, -⟩ := bind_ok h
    exact parse_payload_returns_iff.mp ⟨parsed, hparse⟩
  · rintro ⟨hfits, raw, hkey, hread⟩
    rw [check_signature_eq S HEADER_ENCODED_clean hP hkey (by omega)]
    by_cases hsig : S = text (E.hmac_sha256 raw (HEADER_ENCODED ++ [dot] ++ P))
    · obtain ⟨parsed, hparse⟩ := parse_payload_returns_iff.mpr (hread hsig)
      simp only [decide_eq_true hsig, hparse, bind, Except.bind]
      split
      · exact ⟨_, rfl⟩
      split
      · exact ⟨_, rfl⟩
      split
      · exact ⟨_, rfl⟩
      · exact ⟨_, rfl⟩
    · simp only [decide_eq_false hsig, bind, Except.bind]
      exact ⟨_, rfl⟩

theorem jwt_verify_returns_iff (t₁ t₂ : ℤ) (jwt : Jwt) (h0 : 0 ∉ token) :
    (∃ r, jwt_verify E t₁ t₂ (some token) jwt = .ok r) ↔ Verifiable E token := by
  by_cases hreach : ∃ P S more, token.getD 0 0 = 101 ∧ token.getD 1 0 = 121 ∧
      fields dot token = HEADER_ENCODED :: P :: S :: more
  · obtain ⟨P, S, more, h101, h121, hfields⟩ := hreach
    have hverifiable : Verifiable E token ↔ Checkable E P S := by
      constructor
      · exact fun h => h h101 h121 P S more hfields
      · intro h _ _ P' S' more' hfields'
        obtain ⟨rfl, rfl, -⟩ : P = P' ∧ S = S' ∧ more = more' := by
          simpa using hfields.symm.trans hfields'
        exact h
    rw [hverifiable]
    exact verify_fields_iff t₁ t₂ jwt (payload_clean h0 hfields) h101 h121 hfields
  · apply iff_of_true ⟨_, jwt_verify_refused t₁ t₂ jwt hreach⟩
    exact fun h101 h121 P S more hfields => absurd ⟨P, S, more, h101, h121, hfields⟩ hreach

theorem tokens_clean {scheme data : Bytes} {more : List Bytes} {c : UInt8}
    (h : tokens_of scheme (some data) = some (token :: more)) (hc : c ∈ token) : c ∈ data := by
  rw [tokens_of, Option.map_some] at h
  cases hf : fields blank data with
  | nil => simp [hf] at h
  | cons method tokens =>
    simp only [hf, Option.ite_none_right_eq_some, Option.some.injEq] at h
    exact (mem_fields (d := blank) (s := data) (by simp [hf, h.2])).2.2.subset hc

def BearerServed (E : Library) (data : Bytes) : Prop :=
  ∀ tokens, tokens_of (bytes "bearer") (some data) = some tokens →
    ∃ token, tokens.head? = some token ∧ Verifiable E token

theorem auth_jwt_other (t₁ t₂ : ℤ) {data : Bytes} (hdlr_extra : Option RequestData)
    (h : tokens_of (bytes "bearer") (some data) = none) :
    middleware_auth_jwt E t₁ t₂ data hdlr_extra =
      .ok (.error, hdlr_extra.getD RequestData.zero) := by
  rcases strtok_other h with ⟨next, hs⟩ | ⟨method, next, hs, hmethod⟩
  · simp only [middleware_auth_jwt, hs]
    rfl
  · simp only [middleware_auth_jwt, hs, if_neg hmethod]
    rfl

theorem auth_jwt_bearer (t₁ t₂ : ℤ) {data : Bytes} {tokens : List Bytes}
    (hdlr_extra : Option RequestData)
    (h : tokens_of (bytes "bearer") (some data) = some tokens) :
    middleware_auth_jwt E t₁ t₂ data hdlr_extra = (do
      let (verified, jwt) ← jwt_verify E t₁ t₂ tokens.head? ⟨none, none, none, 0, 0, 0⟩
      if verified then do
        let principal ← not_null jwt.sub
        return (.ok, { hdlr_extra.getD RequestData.zero with
          object_id := unsigned_int jwt.oid, principal := some principal })
      else return (.error, hdlr_extra.getD RequestData.zero)) := by
  obtain ⟨method, next, hs, hbearer, hsecond⟩ := strtok_scheme h
  simp only [middleware_auth_jwt, hs, if_pos hbearer, hsecond]

theorem middleware_auth_jwt_returns_iff (t₁ t₂ : ℤ) {data : Bytes}
    (hdlr_extra : Option RequestData) (h0 : 0 ∉ data) :
    (∃ r, middleware_auth_jwt E t₁ t₂ data hdlr_extra = .ok r) ↔ BearerServed E data := by
  unfold BearerServed
  cases htokens : tokens_of (bytes "bearer") (some data) with
  | none =>
    rw [auth_jwt_other t₁ t₂ hdlr_extra htokens]
    exact iff_of_true ⟨_, rfl⟩ fun tokens h => nomatch h
  | some tokens =>
    rw [auth_jwt_bearer t₁ t₂ hdlr_extra htokens]
    cases tokens with
    | nil =>
      apply iff_of_false
      · rintro ⟨r, h⟩
        cases h
      · intro h
        obtain ⟨token, hhead, -⟩ := h [] rfl
        cases hhead
    | cons token more =>
      have htoken : 0 ∉ token := fun hmem => h0 (tokens_clean htokens hmem)
      have hserved : (∀ tokens, some (token :: more) = some tokens →
          ∃ token, tokens.head? = some token ∧ Verifiable E token) ↔ Verifiable E token := by
        simp
      rw [hserved, ← jwt_verify_returns_iff t₁ t₂ ⟨none, none, none, 0, 0, 0⟩ htoken]
      constructor
      · rintro ⟨r, h⟩
        obtain ⟨verdict, hverify, -⟩ := bind_ok h
        exact ⟨verdict, hverify⟩
      · rintro ⟨⟨verified, jwt⟩, hverify⟩
        rw [List.head?_cons, hverify]
        cases verified with
        | false => exact ⟨_, rfl⟩
        | true =>
          obtain ⟨raw, P, S, haccepted⟩ := jwt_verify_accepts htoken hverify
          obtain ⟨decoded, -, hclaims⟩ := parse_payload_ok haccepted.parsed
          obtain ⟨sub, -, hsub⟩ := hclaims.sub
          simp only [hsub, not_null, bind, Except.bind]
          exact ⟨_, rfl⟩

end Bearer

/-- Each of the four functions runs to its verdict on exactly the headers described: a scheme
needs its second token, the decoder has to accept it, and a signed token has to be readable. -/
theorem auth_total_iff (E : Library) (S : Symbols) (V : Surroundings) (app : App)
    (header : Option Bytes) (data : Bytes) (hdlr_extra : Option RequestData)
    (basic_auth_count : ℕ) (t₁ t₂ : ℤ)
    (hclean : ∀ auth, app_basic_auth app = .ok (some auth) → 0 ∉ auth) (hdata : 0 ∉ data) :
    ((∃ n served, middleware_auth_basic E.kore S V n app header hdlr_extra basic_auth_count =
      some (.ok served)) ↔ ∃ settings, app_basic_auth app = .ok settings ∧
        BasicServed E.kore S V settings header hdlr_extra basic_auth_count) ∧
    (∀ auth, 0 ∉ auth →
      ((∃ attempt, http_basic_auth E.kore header auth basic_auth_count = .ok attempt) ↔
        Admissible E.kore header ∧
          (credentials E.kore header = some auth ∨ basic_auth_count < 2 ^ 31 - 1))) ∧
    ((∃ r, middleware_auth_jwt E t₁ t₂ data hdlr_extra = .ok r) ↔ BearerServed E data) ∧
    (∀ token jwt, (∀ text, token = some text → 0 ∉ text) →
      ((∃ r, jwt_verify E t₁ t₂ token jwt = .ok r) ↔
        ∃ text, token = some text ∧ Verifiable E text)) := by
  refine ⟨middleware_auth_basic_returns_iff hclean, fun auth => http_basic_auth_returns_iff,
    middleware_auth_jwt_returns_iff t₁ t₂ hdlr_extra hdata, ?_⟩
  intro token jwt htoken
  cases token with
  | none =>
    apply iff_of_false
    · rintro ⟨r, h⟩
      cases h
    · rintro ⟨text, h, -⟩
      cases h
  | some text =>
    rw [jwt_verify_returns_iff t₁ t₂ jwt (htoken text rfl)]
    constructor
    · exact fun h => ⟨text, rfl, h⟩
    · rintro ⟨_, h, hverifiable⟩
      cases h
      exact hverifiable

theorem auth_total_iff_schemes :
    (∃ attempt, http_basic_auth reference.kore (some (bytes "basic QQ==")) (bytes "A") 3 =
      .ok attempt) ∧
    ¬∃ r, middleware_auth_jwt reference 1000 1060 (bytes "Bearer") none = .ok r := by
  have hnone : app_basic_auth (application_create []) = .ok none := by decide
  have hclean : ∀ auth, app_basic_auth (application_create []) = .ok (some auth) → 0 ∉ auth := by
    intro auth h
    rw [hnone] at h
    cases h
  obtain ⟨-, hbasic, hjwt, -⟩ := auth_total_iff reference ⟨fun _ => none, fun _ => none,
    fun _ => none⟩ (request []) (application_create []) (some (bytes "basic QQ=="))
    (bytes "Bearer") none 3 1000 1060 hclean (by decide)
  constructor
  · exact (hbasic (bytes "A") (by decide)).mpr ⟨by decide +kernel, Or.inr (by decide)⟩
  · rw [hjwt]
    intro h
    obtain ⟨token, hhead, -⟩ := h [] (by decide +kernel)
    cases hhead

/-- A scheme without a second token, and one with a token that the decoder rejects. -/
theorem headers_without_verdict :
    (¬∀ header : Option Bytes, ∃ attempt,
      http_basic_auth reference.kore header (bytes "A") 0 = .ok attempt) ∧
    ¬∀ data : Bytes, ∃ r, middleware_auth_jwt reference 1000 1060 data none = .ok r := by
  constructor
  · intro h
    obtain ⟨attempt, hcall⟩ := h (some (bytes "Basic %%%"))
    have hfault : http_basic_auth reference.kore (some (bytes "Basic %%%")) (bytes "A") 0 =
        .error .uninitialised := by decide +kernel
    rw [hfault] at hcall
    cases hcall
  · intro h
    obtain ⟨r, hcall⟩ := h (bytes "Bearer")
    have hfault : middleware_auth_jwt reference 1000 1060 (bytes "Bearer") none =
        .error .nullPointer := by decide +kernel
    rw [hfault] at hcall
    cases hcall

end AuthTotality
