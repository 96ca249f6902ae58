import Ayahesa.DecimalText
import Ayahesa.JwtToken
import Ayahesa.StringLiterals

/-! # The query of a login

The user name of a request is printed into the text of a statement, without escaping and into a
buffer of 256 bytes. -/
namespace LoginQuery

open CMemory DecimalText JwtToken StringLiterals

/-! ## The model of the principal -/

def T_COST : ℕ := 2

/-- The macro says `2^10`, which is an exclusive or. -/
def M_COST : ℕ := 2 ^^^ 10

def P_COST : ℕ := 1

/-- What the database, the password hashing and the C library answer. -/
structure Services where
  kore_pgsql_query_init : Bool
  /-- The rows of a statement behind those that were sent before it, if it succeeds. -/
  kore_pgsql_query : List Bytes → Bytes → Option (List (List Bytes))
  argon2i_verify : Option Bytes → Bytes → Bool
  /-- The encoded hash of a secret with a salt, if it succeeds. -/
  argon2i_hash_encoded : ℕ → ℕ → ℕ → Bytes → Bytes → Option Bytes
  random_string : Bytes
  atoi : Bytes → ℤ
  null_text : Option Bytes

variable (S : Services)

def crypt_password_hash (secret : Bytes) : Option Bytes :=
  S.argon2i_hash_encoded T_COST M_COST P_COST secret S.random_string

def crypt_password_verify (encoded : Option Bytes) (secret : Bytes) : Bool :=
  S.argon2i_verify encoded secret

def selectsql (user : Bytes) : Bytes :=
  bytes "SELECT id,password FROM users WHERE email='" ++ user ++ bytes "' LIMIT 1"

def updatesql (password_hash : Bytes) (object_id : ℤ) : Bytes :=
  bytes "UPDATE users SET password='" ++ password_hash ++ bytes "' WHERE id='" ++
    decimal object_id ++ bytes "'"

/-- The statements that are sent, and the object id, which is 0 when the login fails. -/
def model_principal_auth (user secret : Bytes) : List Bytes × C ℤ :=
  if !S.kore_pgsql_query_init then ([], .ok 0)
  else
    let query := snprintf 256 (selectsql user)
    match S.kore_pgsql_query [] query with
    | none | some [] => ([query], .ok 0)
    | some (row :: _) =>
      if !crypt_password_verify S row[1]? secret then ([query], .ok 0)
      else
        match row[0]?, format_string S.null_text (crypt_password_hash S secret) with
        | none, _ => ([query], .error .nullPointer)
        | _, .error e => ([query], .error e)
        -- the result of the update is logged and not looked at
        | some id, .ok password_hash_new =>
          ([query, snprintf 256 (updatesql password_hash_new (S.atoi id))], .ok (S.atoi id))

/-! ## The method -/

inductive EventType where
  | EVENT_AUTH_FAILED
  | EVENT_AUTH_SUCCESS
  deriving DecidableEq, Repr

inductive Reply where
  | error (code : ℤ) (message : Option Bytes)
  | result (members : Members)
  deriving DecidableEq, Repr

structure Answer where
  fired : Option (EventType × Bytes)
  reply : Reply
  deriving DecidableEq, Repr

def JSONRPC_INVALID_PARAMS : ℤ := -32602

def TEST_AUD : Bytes := bytes "C1M0L0P2"

def validate_claim (user secret : Bytes) : List Bytes × C ℤ := model_principal_auth S user secret

def jrpc_write_jwt (app_session_lifetime : ℤ) (token : Bytes) : Members := [
  (bytes "token_type", .string (bytes "Bearer")),
  (bytes "expires_in", .number app_session_lifetime),
  (bytes "token", .string token)]

/-- The parameters are given if they are an object. -/
def jwt_authenticate (E : Library) (now : ℤ) (jti : Cuuid) (params : Option Members) :
    List Bytes × C Answer :=
  match params with
  | none => ([], .ok ⟨none, .error JSONRPC_INVALID_PARAMS none⟩)
  | some _ =>
    match yajl_tree_get params (bytes "user") with
    | some (.string obj_user) =>
      match yajl_tree_get params (bytes "secret") with
      | some (.string obj_secret) =>
        let user := c_string obj_user
        let (statements, object_id) := validate_claim S user (c_string obj_secret)
        (statements, do
          let object_id ← object_id
          if object_id = 0 then
            return ⟨some (.EVENT_AUTH_FAILED, user),
              .error (-4) (some (bytes "Authentication failed"))⟩
          let (token, _) ← jwt_token_new E now jti
            { iss := none, sub := some user, aud := some TEST_AUD, oid := object_id,
              iat := 0, exp := 0 }
          return ⟨some (.EVENT_AUTH_SUCCESS, user),
            .result (jrpc_write_jwt E.app_session_lifetime token)⟩)
      | _ => ([], .ok ⟨none, .error (-3) (some (bytes "Parameter secret requires string"))⟩)
    | _ => ([], .ok ⟨none, .error (-2) (some (bytes "Parameter user requires string"))⟩)

/-! ## What the first statement says -/

def apostrophe : UInt8 := 39

def login_statement (user : Bytes) : Statement UInt8 where
  front := bytes "SELECT id,password FROM users WHERE email="
  literals := [(user, bytes " LIMIT 1")]

def AsksFor (user : Bytes) (statements : List Bytes) : Prop :=
  ∀ query, statements.head? = some query → read apostrophe query = some (login_statement user)

theorem model_principal_auth_first (user secret : Bytes) :
    (model_principal_auth S user secret).1.head? =
      if S.kore_pgsql_query_init then some (snprintf 256 (selectsql user)) else none := by
  unfold model_principal_auth
  cases S.kore_pgsql_query_init with
  | false => rfl
  | true =>
    simp only [Bool.not_true, Bool.false_eq_true, if_false, if_true]
    split
    · rfl
    · rfl
    · split
      · rfl
      · split <;> rfl

theorem jwt_authenticate_statements (E : Library) (now : ℤ) (jti : Cuuid) {members : Members}
    {user secret : Bytes}
    (huser : yajl_tree_get (some members) (bytes "user") = some (.string user))
    (hsecret : yajl_tree_get (some members) (bytes "secret") = some (.string secret)) :
    (jwt_authenticate S E now jti (some members)).1 =
      (model_principal_auth S (c_string user) (c_string secret)).1 := by
  simp only [jwt_authenticate, huser, hsecret, validate_claim]

theorem c_string_eq_iff (s : Bytes) : c_string s = s ↔ 0 ∉ s := by
  constructor
  · intro h
    rw [← h]
    exact c_string_clean s
  · exact c_string_of_clean

/-- The text of the statement asks for a user if and only if no quote or NUL stands in the name and
the statement fits. -/
theorem selectsql_iff (user : Bytes) :
    read apostrophe (snprintf 256 (selectsql (c_string user))) = some (login_statement user) ↔
      0 ∉ user ∧ apostrophe ∉ user ∧ user.length ≤ 203 := by
  have hfront : apostrophe ∉ bytes "SELECT id,password FROM users WHERE email=" := by decide
  have hrest : apostrophe ∉ bytes " LIMIT 1" := by decide
  have hprefix : c_string user <+: user := List.takeWhile_prefix _
  have hsql : selectsql (c_string user) =
      bytes "SELECT id,password FROM users WHERE email=" ++
        apostrophe :: (c_string user ++ apostrophe :: bytes " LIMIT 1") := by
    have hopen : bytes "SELECT id,password FROM users WHERE email='" =
        bytes "SELECT id,password FROM users WHERE email=" ++ [apostrophe] := by decide
    have hclose : bytes "' LIMIT 1" = apostrophe :: bytes " LIMIT 1" := by decide
    rw [selectsql, hopen, hclose, List.append_assoc, List.append_assoc]
    rfl
  have hfrontlen : (bytes "SELECT id,password FROM users WHERE email=").length = 42 := by decide
  have hrestlen : (bytes " LIMIT 1").length = 8 := by decide
  rw [snprintf, hsql, login_statement, read_embedded_iff hfront hrest hprefix, c_string_eq_iff,
    hfrontlen, hrestlen]
  refine and_congr_right fun _ => and_congr_right fun _ => ?_
  omega

/-- The statement of a login has its fixed structure and names the user of the request if and only
if the name holds neither a quote nor a NUL and at most 203 bytes, or nothing is sent. -/
theorem login_query_fixed_iff (S : Services) (E : Library) (now : ℤ) (jti : Cuuid)
    (members : Members) (user secret : Bytes)
    (huser : yajl_tree_get (some members) (bytes "user") = some (.string user))
    (hsecret : yajl_tree_get (some members) (bytes "secret") = some (.string secret)) :
    AsksFor user (jwt_authenticate S E now jti (some members)).1 ↔
      S.kore_pgsql_query_init = false ∨
        0 ∉ user ∧ apostrophe ∉ user ∧ user.length ≤ 203 := by
  rw [AsksFor, jwt_authenticate_statements S E now jti huser hsecret, model_principal_auth_first]
  cases S.kore_pgsql_query_init with
  | false => simp
  | true =>
    rw [if_pos rfl, ← selectsql_iff]
    simp

def no_users : Services where
  kore_pgsql_query_init := true
  kore_pgsql_query := fun _ _ => some []
  argon2i_verify := fun _ _ => false
  argon2i_hash_encoded := fun _ _ _ _ _ => none
  random_string := []
  atoi := fun _ => 0
  null_text := some (bytes "(null)")

def credentials (user : Bytes) : Members :=
  [(bytes "user", .string user), (bytes "secret", .string (bytes "x"))]

theorem login_query_fixed_iff_name :
    AsksFor (bytes "alice@example.org")
      (jwt_authenticate no_users reference 0 reference_jti
        (some (credentials (bytes "alice@example.org")))).1 :=
  (login_query_fixed_iff no_users reference 0 reference_jti
    (credentials (bytes "alice@example.org")) (bytes "alice@example.org") (bytes "x")
    (by decide) (by decide)).mpr (Or.inr (by decide))

theorem quote_breaks_out :
    ¬∀ (S : Services) (E : Library) (now : ℤ) (jti : Cuuid) (members : Members)
      (user secret : Bytes),
      yajl_tree_get (some members) (bytes "user") = some (.string user) →
      yajl_tree_get (some members) (bytes "secret") = some (.string secret) →
      AsksFor user (jwt_authenticate S E now jti (some members)).1 := by
  intro h
  have hasks := h no_users reference 0 reference_jti (credentials (bytes "' OR '1'='1"))
    (bytes "' OR '1'='1") (bytes "x") (by decide) (by decide) _ rfl
  exact absurd hasks (by decide)

end LoginQuery
