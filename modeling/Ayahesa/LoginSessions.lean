import Ayahesa.AuthMiddleware
import Ayahesa.JwtRoundTrip
import Ayahesa.LoginQuery
import Ayahesa.ResourceStore

/-! # From a login to the resources

A login returns a token, and later requests send it back in their header. While it is valid it
stands for the object id of the login, and that is the owner of what they upload and download. -/
namespace LoginSessions

open CMemory HttpRequest DelimitedFields CompatStrings KoreApi JwtToken JwtRoundTrip JwtGrammar
  AuthMiddleware LoginQuery AppConfig AppStart AyaFile StoredFiles ResourceController ResourceNames
  ResourceStore
open Base64urlCodec (text text_mem)
open RunRefinement (run spec Along)

/-! ## Requests with a header -/

/-- A request as it arrives: the header, the two readings of the clock, and the rest. -/
structure Arrival where
  t₁ : ℤ
  t₂ : ℤ
  authorization : Bytes
  method : Method
  query : List (Bytes × Bytes)
  file : Option HttpFile
  quid : Cuuid
  random : Bytes

def Arrival.call (a : Arrival) (extra : RequestData) : Call :=
  ⟨⟨a.method, some extra, a.query, a.file⟩, a.quid, a.random⟩

/-- The middleware stands in front of the route. -/
def serve (E : Library) (app : App) (null_text : Option Bytes) (disk : Disk) (a : Arrival) :
    Proc (Option Response × Disk) := do
  match ← lift (middleware_auth_jwt E a.t₁ a.t₂ a.authorization none) with
  | (.error, _) => return (none, disk)
  | (.ok, extra) => app_resource app null_text disk (a.call extra)

def request_action (E : Library) (null_text : Option Bytes) (a : Arrival) : Action :=
  match middleware_auth_jwt E a.t₁ a.t₂ a.authorization none with
  | .ok (.ok, extra) => action null_text (a.call extra)
  | _ => .refused

/-- The middleware comes to a verdict, and a request that it lets through is sound. -/
def Admitted (E : Library) (null_text : Option Bytes) (S : Bytes) (disk : Disk) (a : Arrival) :
    Prop :=
  ∃ outcome extra, middleware_auth_jwt E a.t₁ a.t₂ a.authorization none = .ok (outcome, extra) ∧
    (outcome = .ok → Sound null_text S disk (a.call extra))

section Serve

variable {E : Library} {app : App} {null_text storage : Option Bytes} {S : Bytes}
  {writable : Key → Bool} {disk : Disk} {table : Table} {a : Arrival}

theorem serve_step (hstorage : app_storage app = .ok storage)
    (hS : format_string null_text storage = .ok S) (hrep : Represents S writable disk table)
    (h : Admitted E null_text S disk a) :
    ∃ disk', serve E app null_text disk a =
        .ok ((next writable table (request_action E null_text a)).1, disk') ∧
      Represents S writable disk' (next writable table (request_action E null_text a)).2 := by
  obtain ⟨outcome, extra, hauth, hsound⟩ := h
  unfold serve request_action
  rw [hauth]
  cases outcome with
  | error => exact ⟨disk, rfl, hrep⟩
  | ok => exact resource_step hstorage hS hrep (hsound rfl)

/-- The data of the latest upload under a key, or what was there before. -/
def latest (E : Library) (null_text : Option Bytes) (writable : Key → Bool) (table : Table)
    (past : List Arrival) (key : Key) : Option Bytes :=
  ((past.filterMap fun b => put_under writable key (request_action E null_text b)).getLast?).or
    (table key)

def reply (key : Key) : Option Bytes → Response
  | none => ⟨404, [], []⟩
  | some data => ⟨200, [(bytes "content-type", mime_type key.ext)], data⟩

theorem next_get (key : Key) :
    (next writable table (.get key)).1 = some (reply key (table key)) := by
  rw [next]
  cases table key <;> rfl

end Serve

/-- A download returns the data of the latest upload whose token had the same object id, under the
same identifier and extension, whatever was asked by whom in between. -/
theorem download_latest (E : Library) {app : App} {null_text storage : Option Bytes} {S : Bytes}
    {disk : Disk} {table : Table} {past : List Arrival} {a : Arrival} {key : Key}
    (hstorage : app_storage app = .ok storage) (hS : format_string null_text storage = .ok S)
    (hrep : Represents S (fun key => disk.writable (path S key)) disk table)
    (hadmitted : Along (serve E app null_text) (Admitted E null_text S) disk (past ++ [a]))
    (hget : request_action E null_text a = .get key) :
    ∃ answers disk', run (serve E app null_text) disk (past ++ [a]) = .ok (answers, disk') ∧
      answers.getLast? = some (some (reply key
        (latest E null_text (fun key => disk.writable (path S key)) table past key))) := by
  have hstep : ∀ d t b, Represents S (fun key => disk.writable (path S key)) d t →
      Admitted E null_text S d b → ∃ d', serve E app null_text d b =
        .ok ((next (fun key => disk.writable (path S key)) t
          (request_action E null_text b)).1, d') ∧
        Represents S (fun key => disk.writable (path S key)) d'
          (next (fun key => disk.writable (path S key)) t (request_action E null_text b)).2 :=
    fun d t b hR hP => serve_step hstorage hS hR hP
  obtain ⟨disk', hrun, -⟩ := @RunRefinement.run_refines _ _ _ _ _ _
    (fun t b => next (fun key => disk.writable (path S key)) t (request_action E null_text b))
    _ _ hstep disk table (past ++ [a]) hrep hadmitted
  refine ⟨_, disk', hrun, ?_⟩
  rw [RunRefinement.spec_snoc, hget, next_get, spec_entry, latest]

/-! ## Logins -/

section Login

variable {E : Library} {S : Services} {now : ℤ} {jti : Cuuid}

theorem scheme_plain {scheme : Bytes} (h : strtolower scheme = bytes "bearer") :
    blank ∉ scheme ∧ scheme ≠ [] := by
  constructor
  · intro hmem
    have hlower : tolower blank ∈ strtolower scheme := List.mem_map_of_mem hmem
    rw [h] at hlower
    exact absurd hlower (by decide)
  · rintro rfl
    exact absurd h (by decide)

theorem middleware_bearer {t₁ t₂ : ℤ} {scheme token sub : Bytes} {verified : Bool} {jwt : Jwt}
    (hscheme : strtolower scheme = bytes "bearer") (hne : token ≠ []) (hblank : blank ∉ token)
    (hverify : jwt_verify E t₁ t₂ (some token) ⟨none, none, none, 0, 0, 0⟩ = .ok (verified, jwt))
    (hsub : jwt.sub = some sub) (extra : Option RequestData) :
    middleware_auth_jwt E t₁ t₂ (scheme ++ blank :: token) extra =
      .ok (if verified then (.ok, { extra.getD RequestData.zero with
          object_id := unsigned_int jwt.oid, principal := some sub })
        else (.error, extra.getD RequestData.zero)) := by
  obtain ⟨hplain, hscheme_ne⟩ := scheme_plain hscheme
  have hfields : fields blank (scheme ++ blank :: token) = [scheme, token] := by
    rw [fields_append_delim, fields_of_not_mem hplain hscheme_ne, fields_of_not_mem hblank hne]
    rfl
  obtain ⟨hfirst, hrest⟩ := strtok_fields (scheme ++ blank :: token)
  rcases hs : strtok (scheme ++ blank :: token) blanks with ⟨method, behind⟩
  rw [hs, hfields] at hfirst hrest
  obtain ⟨hsecond, -⟩ := strtok_fields behind
  simp only [List.head?_cons, List.tail_cons] at hfirst hrest
  rw [hrest, List.head?_cons] at hsecond
  subst hfirst
  simp only [middleware_auth_jwt, hs, if_pos hscheme, hsecond, hverify, hsub, not_null, bind,
    Except.bind, pure, Except.pure]
  cases verified <;> rfl

def login_jwt (user : Bytes) (object_id : ℤ) : Jwt where
  iss := none
  sub := some user
  aud := some TEST_AUD
  oid := object_id
  iat := 0
  exp := 0

/-- A login of a principal that the database knows issues a token with its object id. -/
theorem jwt_authenticate_known {members : Members} {user secret : Bytes} {object_id : ℤ}
    (huser : yajl_tree_get (some members) (bytes "user") = some (.string user))
    (hsecret : yajl_tree_get (some members) (bytes "secret") = some (.string secret))
    (hknown : (model_principal_auth S (c_string user) (c_string secret)).2 = .ok object_id)
    (hne : object_id ≠ 0) :
    (jwt_authenticate S E now jti (some members)).2 = (do
      let (token, _) ← jwt_token_new E now jti (login_jwt (c_string user) object_id)
      return ⟨some (.EVENT_AUTH_SUCCESS, c_string user),
        .result (jrpc_write_jwt E.app_session_lifetime token)⟩) := by
  simp only [jwt_authenticate, huser, hsecret, validate_claim, hknown, bind, Except.bind,
    if_neg hne]
  rfl

theorem issued_token_field {raw payload : Bytes} :
    issued_token E raw payload ≠ [] ∧ blank ∉ issued_token E raw payload := by
  have htext : ∀ x : Bytes, blank ∉ text x := fun x h => absurd (text_mem h) (by decide)
  have hheader : blank ∉ HEADER_ENCODED ∧ HEADER_ENCODED ≠ [] := by decide
  rw [issued_token, layout_plain]
  refine ⟨by simp [hheader.2], ?_⟩
  simp only [List.mem_append, List.mem_singleton, not_or]
  exact ⟨⟨⟨⟨hheader.1, by decide⟩, htext _⟩, by decide⟩, htext _⟩

theorem token_opens {raw iss user : Bytes} {object_id : ℤ}
    (hkey : E.kore.base64_decode E.app_key = some raw) (hiss0 : 0 ∉ iss) (huser0 : 0 ∉ user)
    (hyajl : YajlInverts E
      (issued_members E now jti (login_jwt user object_id) iss user TEST_AUD))
    (hfits : 4 * (E.yajl_gen_map
      (issued_members E now jti (login_jwt user object_id) iss user TEST_AUD)).length < 2 ^ 64)
    {scheme : Bytes} (hscheme : strtolower scheme = bytes "bearer") (t₁ t₂ : ℤ)
    (extra : Option RequestData) :
    middleware_auth_jwt E t₁ t₂ (scheme ++ blank :: issued_token E raw (E.yajl_gen_map
        (issued_members E now jti (login_jwt user object_id) iss user TEST_AUD))) extra =
      .ok (if now ≤ t₁ ∧ t₂ ≤ now + E.app_session_lifetime then
          (.ok, { extra.getD RequestData.zero with
            object_id := unsigned_int object_id, principal := some user })
        else (.error, extra.getD RequestData.zero)) := by
  obtain ⟨hne, hblank⟩ := @issued_token_field E raw (E.yajl_gen_map
    (issued_members E now jti (login_jwt user object_id) iss user TEST_AUD))
  have hparse := parse_payload_members hiss0 huser0 (by decide)
    (decode_payload_text hyajl.gen_clean hfits) hyajl.parse_gen
  have hverify := jwt_verify_issued t₁ t₂ ⟨none, none, none, 0, 0, 0⟩ hkey hyajl.gen_ne_nil hfits
    hparse
  rw [middleware_bearer hscheme hne hblank hverify rfl]
  by_cases htime : now ≤ t₁ ∧ t₂ ≤ now + E.app_session_lifetime
  · rw [if_pos htime, if_pos (decide_eq_true htime)]
    rfl
  · rw [if_neg htime, if_neg (by simpa using htime)]

end Login

/-- A principal that the database knows is answered with a token, unless the expiry time or the
payload is too large. In a header of a later request the token stands for the name and the object
id of the login during the session lifetime, and for nobody at any other time. -/
theorem login_session (S : Services) (E : Library) (now : ℤ) (jti : Cuuid) {members : Members}
    {raw iss user secret : Bytes} {object_id : ℤ}
    (hkey : E.kore.base64_decode E.app_key = some raw) (hiss : E.app_domainname = some iss)
    (hiss0 : 0 ∉ iss) (huser : yajl_tree_get (some members) (bytes "user") = some (.string user))
    (hsecret : yajl_tree_get (some members) (bytes "secret") = some (.string secret))
    (hknown : (model_principal_auth S (c_string user) (c_string secret)).2 = .ok object_id)
    (hne : object_id ≠ 0)
    (hyajl : YajlInverts E
      (issued_members E now jti (login_jwt (c_string user) object_id) iss (c_string user)
        TEST_AUD)) :
    ((∃ answer, (jwt_authenticate S E now jti (some members)).2 = .ok answer) ↔
      long_long (now + E.app_session_lifetime) = .ok (now + E.app_session_lifetime) ∧
      4 * (E.yajl_gen_map (issued_members E now jti (login_jwt (c_string user) object_id) iss
        (c_string user) TEST_AUD)).length < 2 ^ 64) ∧
    ∀ answer, (jwt_authenticate S E now jti (some members)).2 = .ok answer →
      ∃ token, answer = ⟨some (.EVENT_AUTH_SUCCESS, c_string user),
          .result (jrpc_write_jwt E.app_session_lifetime token)⟩ ∧
        ∀ scheme, strtolower scheme = bytes "bearer" → ∀ t₁ t₂ extra,
          middleware_auth_jwt E t₁ t₂ (scheme ++ blank :: token) extra =
            .ok (if now ≤ t₁ ∧ t₂ ≤ now + E.app_session_lifetime then
                (.ok, { extra.getD RequestData.zero with
                  object_id := unsigned_int object_id, principal := some (c_string user) })
              else (.error, extra.getD RequestData.zero)) := by
  rw [jwt_authenticate_known huser hsecret hknown hne]
  constructor
  · constructor
    · rintro ⟨answer, hanswer⟩
      obtain ⟨⟨token, jwt'⟩, htoken, -⟩ := bind_ok hanswer
      obtain ⟨hexp, hfits, -⟩ := jwt_token_new_ok hkey hiss rfl rfl htoken
      exact ⟨hexp, hfits⟩
    · rintro ⟨hexp, hfits⟩
      obtain ⟨token, jwt', htoken⟩ := jwt_token_new_eq hkey hiss rfl rfl hexp hfits
      rw [htoken]
      exact ⟨_, rfl⟩
  · intro answer hanswer
    obtain ⟨⟨token, jwt'⟩, htoken, hanswer⟩ := bind_ok hanswer
    obtain ⟨-, hfits, rfl⟩ := jwt_token_new_ok hkey hiss rfl rfl htoken
    refine ⟨_, (Except.ok.inj hanswer).symm, ?_⟩
    intro scheme hscheme t₁ t₂ extra
    exact token_opens hkey hiss0 (c_string_clean user) hyajl hfits hscheme t₁ t₂ extra

/-! ## A session -/

def session_members : Members :=
  payload_members (bytes "app.local") (bytes "alice") TEST_AUD (quid_tostring reference_jti)
    7 1000 1060

def session_payload : Bytes := bytes ("\x7b\"iss\":\"app.local\",\"sub\":\"alice\",\"oid\":7," ++
  "\"aud\":\"C1M0L0P2\",\"iat\":1000,\"exp\":1060," ++
  "\"jti\":\"\x7b00000001-0002-0003-0405-060708090a0b\x7d\"\x7d")

def session_P : Bytes := bytes (
  "eyJpc3MiOiJhcHAubG9jYWwiLCJzdWIiOiJhbGljZSIsIm9pZCI6NywiYXVkIjoi" ++
  "QzFNMEwwUDIiLCJpYXQiOjEwMDAsImV4cCI6MTA2MCwianRpIjoiezAwMDAwMDAxLTAwMDItMDAwMy0wNDA1LTA2" ++
  "MDcwODA5MGEwYn0ifQ")

def session_mac : Bytes := [247, 99, 121, 163, 55, 162, 209, 199, 133, 37, 78, 155, 64, 213, 187,
  140, 210, 12, 139, 123, 80, 131, 44, 46, 109, 33, 200, 208, 156, 134, 46, 38]

/-- The values of the real functions on that payload under the key `A`. -/
def session_library : Library where
  kore := KoreApi.reference
  hmac_sha256 key data :=
    if key = bytes "A" ∧ data = HEADER_ENCODED ++ [dot] ++ session_P then session_mac
    else List.replicate 32 0
  hmac_sha256_length key data := by split <;> rfl
  yajl_gen_map members := if members = session_members then session_payload else []
  yajl_tree_parse text := if text = session_payload then some session_members else none
  app_key := bytes "QQ=="
  app_domainname := some (bytes "app.local")
  app_session_lifetime := 60

def one_user : Services where
  kore_pgsql_query_init := true
  kore_pgsql_query := fun _ query =>
    some (if query = selectsql (bytes "alice") then [[bytes "7", bytes "$argon2i$"]] else [])
  argon2i_verify := fun encoded secret => encoded = some (bytes "$argon2i$") ∧ secret = bytes "x"
  argon2i_hash_encoded := fun _ _ _ _ _ => some (bytes "$argon2i$")
  random_string := []
  atoi := fun text => if text = bytes "7" then 7 else 0
  null_text := some (bytes "(null)")

def session_token : Bytes := issued_token session_library (bytes "A") session_payload

theorem session_inverts : YajlInverts session_library
    (issued_members session_library 1000 reference_jti (login_jwt (bytes "alice") 7)
      (bytes "app.local") (bytes "alice") TEST_AUD) :=
  ⟨by decide +kernel, by decide +kernel, by decide +kernel⟩

theorem login_session_alice : ∃ answer,
    (jwt_authenticate one_user session_library 1000 reference_jti
        (some (credentials (bytes "alice")))).2 = .ok answer ∧
      answer.fired = some (.EVENT_AUTH_SUCCESS, bytes "alice") := by
  obtain ⟨hanswered, hsession⟩ := @login_session one_user session_library 1000 reference_jti
    (credentials (bytes "alice")) (bytes "A") (bytes "app.local") (bytes "alice") (bytes "x") 7
    (by decide) rfl (by decide) (by decide) (by decide) (by decide +kernel) (by decide)
    session_inverts
  obtain ⟨answer, hanswer⟩ := hanswered.mpr ⟨by decide, by decide +kernel⟩
  obtain ⟨token, rfl, -⟩ := hsession answer hanswer
  exact ⟨_, hanswer, rfl⟩

def session_header : Bytes := bytes "Bearer" ++ blank :: session_token

theorem session_opens :
    middleware_auth_jwt session_library 1000 1060 session_header none =
      .ok (.ok, ⟨7, some (bytes "alice"), none⟩) := by
  have hopens := @token_opens session_library 1000 reference_jti (bytes "A") (bytes "app.local")
    (bytes "alice") 7 (by decide) (by decide) (by decide) session_inverts (by decide +kernel)
    (bytes "Bearer") (by decide) 1000 1060 none
  rw [if_pos (by decide)] at hopens
  exact hopens

def upload_arrival : Arrival where
  t₁ := 1000
  t₂ := 1060
  authorization := session_header
  method := .HTTP_METHOD_POST
  query := []
  file := some (upload (bytes "a.txt"))
  quid := reference_jti
  random := []

def download_arrival : Arrival :=
  { upload_arrival with
    method := .HTTP_METHOD_GET
    query := [(bytes "id", unbraced reference_jti), (bytes "ext", bytes "txt")]
    file := none }

theorem download_latest_session : ∃ answers disk',
    run (serve session_library store_app none) empty_disk ([upload_arrival] ++ [download_arrival]) =
        .ok (answers, disk') ∧
      answers.getLast? = some (some
        ⟨200, [(bytes "content-type", bytes "text/plain")], bytes "abc"⟩) := by
  have hstorage : app_storage store_app = .ok (some (bytes "s")) := by decide
  have hrep : Represents (bytes "s") (fun key => empty_disk.writable (path (bytes "s") key))
      empty_disk fun _ => none := ⟨fun _ _ => rfl, fun _ => rfl⟩
  have hfirst : request_action session_library none upload_arrival =
      .put text_key (bytes "abc") := by
    have hauth : middleware_auth_jwt session_library upload_arrival.t₁ upload_arrival.t₂
      upload_arrival.authorization none = _ := session_opens
    rw [request_action, hauth]
    decide
  have hsecond : request_action session_library none download_arrival = .get text_key := by
    have hauth : middleware_auth_jwt session_library download_arrival.t₁ download_arrival.t₂
      download_arrival.authorization none = _ := session_opens
    rw [request_action, hauth]
    decide
  have hadmitted : Along (serve session_library store_app none)
      (Admitted session_library none (bytes "s")) empty_disk
      ([upload_arrival] ++ [download_arrival]) := by
    refine ⟨⟨_, _, session_opens, fun _ => ?_⟩, fun _ _ _ =>
      ⟨⟨_, _, session_opens, fun _ => text_key_named⟩, fun _ _ _ => trivial⟩⟩
    refine ⟨text_key_named, ?_⟩
    rintro file hfile
    obtain rfl := Option.some.inj hfile
    refine ⟨reference_braced, by decide, fun _ => ?_⟩
    have hund : FailedUploads.Undisturbed (upload (bytes "a.txt")) (path (bytes "s") text_key)
        empty_disk := by
      have hopen : empty_disk.writable (path (bytes "s") text_key) = true := rfl
      rw [FailedUploads.Undisturbed, if_pos hopen]
      exact ⟨by decide, by decide, by decide⟩
    exact hund
  obtain ⟨answers, disk', hrun, hlast⟩ := download_latest session_library hstorage rfl hrep
    hadmitted hsecond
  refine ⟨answers, disk', hrun, hlast.trans ?_⟩
  have hput : put_under (fun key => empty_disk.writable (path (bytes "s") key)) text_key
      (.put text_key (bytes "abc")) = some (bytes "abc") := by
    rw [put_under, if_pos ⟨rfl, rfl⟩]
  rw [latest, List.filterMap_cons, hfirst, hput]
  rfl

end LoginSessions
