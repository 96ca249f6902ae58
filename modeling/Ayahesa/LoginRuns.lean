import Ayahesa.PasswordHashes
import Ayahesa.RunRefinement

/-! # Logins over a table of users

A login reads the hash of a user from the database and, when it accepts the secret, stores a new
hash of the same secret under a new salt. -/
namespace LoginRuns

open CMemory DecimalText StringLiterals LoginQuery PasswordHashes RunRefinement
open Argon2Hash (System)
open Argon2Fill (willing willing_serves)

/-! ## The table and its statements -/

structure User where
  id : ℤ
  email : Bytes
  password : Bytes
  deriving DecidableEq

abbrev Users := List User

def update_statement (password id : Bytes) : Statement UInt8 where
  front := bytes "UPDATE users SET password="
  literals := [(password, bytes " WHERE id="), (id, [])]

def set_password (users : Users) (id : ℤ) (password : Bytes) : Users :=
  users.map fun u => if u.id = id then { u with password := password } else u

def rows_of (users : Users) (email : Bytes) : List (List Bytes) :=
  ((users.filter (·.email = email)).take 1).map fun u => [decimal u.id, u.password]

structure Server (execute : Users → Bytes → Option (List (List Bytes)) × Users) : Prop where
  select : ∀ users query email, read apostrophe query = some (login_statement email) →
    execute users query = (some (rows_of users email), users)
  update : ∀ users query password id,
    read apostrophe query = some (update_statement password (decimal id)) →
    execute users query = (some [], set_password users id password)

/-- The services answer what calls of the code that come to their end answer on a system that
serves, and `atoi` reads an `int` back. -/
structure Faithful (S : Services) : Prop where
  verify : ∀ encoded secret sys accepted, sys.Serves →
    PasswordHashes.crypt_password_verify encoded secret sys = some accepted →
    S.argon2i_verify encoded secret = accepted
  hash : ∀ secret salt sys r, salt.length = 16 → sys.Serves →
    PasswordHashes.crypt_password_hash secret salt sys = some r →
    r = .ok (S.argon2i_hash_encoded T_COST M_COST P_COST secret salt)
  atoi : ∀ id : ℤ, -2 ^ 31 ≤ id → id < 2 ^ 31 → S.atoi (decimal id) = id

structure Attempt where
  user : Bytes
  secret : Bytes
  salt : Bytes
  connected : Bool

section Run

variable (execute : Users → Bytes → Option (List (List Bytes)) × Users) (S : Services)

def after (users : Users) (statements : List Bytes) : Users :=
  statements.foldl (fun users query => (execute users query).2) users

def services (users : Users) (a : Attempt) : Services :=
  { S with
    kore_pgsql_query_init := a.connected
    kore_pgsql_query := fun past query => (execute (after execute users past) query).1
    random_string := a.salt }

def login (users : Users) (a : Attempt) : Except Fault (ℤ × Users) :=
  let (statements, object_id) := model_principal_auth (services execute S users a) a.user a.secret
  object_id.map fun object_id => (object_id, after execute users statements)

end Run

/-! ## What the table is for -/

structure Account where
  id : ℤ
  accepts : Bytes → Prop

abbrev Accounts := Bytes → Option Account

open Classical in
/-- A login with an accepted secret binds the account to that secret under the new salt. -/
noncomputable def next (accounts : Accounts) (a : Attempt) : ℤ × Accounts :=
  match accounts a.user with
  | none => (0, accounts)
  | some account =>
    if a.connected ∧ account.accepts a.secret then
      (account.id, Function.update accounts a.user (some { account with
        accepts := fun secret => secret_tag secret a.salt = secret_tag a.secret a.salt }))
    else (0, accounts)

def account (u : User) : Account where
  id := u.id
  accepts secret := Verifies u.password secret secret.length .Argon2_i

def accounts (users : Users) : Accounts := fun email =>
  (users.find? (·.email = email)).map account

structure WellFormed (users : Users) : Prop where
  ids : (users.map User.id).Nodup
  emails : (users.map User.email).Nodup
  range : ∀ u ∈ users, -2 ^ 31 ≤ u.id ∧ u.id < 2 ^ 31

/-- A name that the first statement carries, and the salt of sixteen bytes. -/
structure Sound (a : Attempt) : Prop where
  clean : 0 ∉ a.user
  plain : apostrophe ∉ a.user
  short : a.user.length ≤ 203
  salt : a.salt.length = 16

/-! ## The statements that are sent -/

section Statements

variable {a : Attempt} {password : Bytes} {id : ℤ}

theorem select_read (h : Sound a) :
    read apostrophe (snprintf 256 (selectsql a.user)) = some (login_statement a.user) := by
  have hread := (selectsql_iff a.user).mpr ⟨h.clean, h.plain, h.short⟩
  rwa [c_string_of_clean h.clean] at hread

theorem digits_plain (n : ℕ) : apostrophe ∉ digits n := by
  intro h
  exact absurd (digits_range h).1 (by decide)

theorem decimal_plain (id : ℤ) : apostrophe ∉ decimal id := by
  unfold decimal
  split
  · rw [List.mem_cons, not_or]
    exact ⟨by decide, digits_plain _⟩
  · exact digits_plain _

theorem update_read (hpassword : apostrophe ∉ password) (hlen : password.length ≤ 128)
    (hlow : -2 ^ 31 ≤ id) (hhigh : id < 2 ^ 31) :
    read apostrophe (snprintf 256 (updatesql password id)) =
      some (update_statement password (decimal id)) := by
  have hdecimal : (decimal id).length ≤ 11 := decimal_length (by decide) (by omega)
  have hopen : bytes "UPDATE users SET password='" =
      bytes "UPDATE users SET password=" ++ [apostrophe] := by decide
  have hmiddle : bytes "' WHERE id='" = apostrophe :: (bytes " WHERE id=" ++ [apostrophe]) := by
    decide
  have hclose : bytes "'" = [apostrophe] := by decide
  have hlengths : (bytes "UPDATE users SET password='").length = 27 ∧
      (bytes "' WHERE id='").length = 12 ∧ (bytes "'").length = 1 := by decide
  have hwhole : snprintf 256 (updatesql password id) = updatesql password id := by
    apply List.take_of_length_le
    simp only [updatesql, List.length_append, hlengths]
    omega
  have hwritten : updatesql password id =
      written apostrophe (update_statement password (decimal id)) := by
    rw [updatesql, hopen, hmiddle, hclose, written, update_statement]
    simp [doubled_of_not_mem hpassword, doubled_of_not_mem (decimal_plain id)]
  rw [hwhole, hwritten]
  apply read_written
  · decide
  · intro p hp
    simp only [List.mem_cons, List.not_mem_nil, or_false] at hp
    rcases hp with rfl | rfl
    · exact (by decide : apostrophe ∉ bytes " WHERE id=")
    · exact List.not_mem_nil
  · intro p hp
    obtain rfl := List.mem_singleton.mp hp
    exact (by decide : bytes " WHERE id=" ≠ [])

end Statements

/-! ## The table -/

section Table

variable {users : Users} {email : Bytes} {u : User}

theorem rows_of_find (h : users.find? (·.email = email) = some u) :
    rows_of users email = [[decimal u.id, u.password]] := by
  rw [rows_of, List.take_one, List.head?_filter, h]
  rfl

theorem rows_of_none (h : users.find? (·.email = email) = none) : rows_of users email = [] := by
  rw [rows_of, List.take_one, List.head?_filter, h]
  rfl

theorem set_password_emails (users : Users) (id : ℤ) (password : Bytes) :
    (set_password users id password).map User.email = users.map User.email := by
  rw [set_password, List.map_map]
  refine List.map_congr_left fun v _ => ?_
  by_cases hv : v.id = id <;> simp [hv]

theorem set_password_ids (users : Users) (id : ℤ) (password : Bytes) :
    (set_password users id password).map User.id = users.map User.id := by
  rw [set_password, List.map_map]
  refine List.map_congr_left fun v _ => ?_
  by_cases hv : v.id = id <;> simp [hv]

theorem set_password_wellFormed (h : WellFormed users) (id : ℤ) (password : Bytes) :
    WellFormed (set_password users id password) := by
  constructor
  · rw [set_password_ids]
    exact h.ids
  · rw [set_password_emails]
    exact h.emails
  · intro v hv
    have hid : v.id ∈ (set_password users id password).map User.id := List.mem_map_of_mem hv
    rw [set_password_ids] at hid
    obtain ⟨w, hw, hsame⟩ := List.mem_map.mp hid
    rw [← hsame]
    exact h.range w hw

theorem find_email (h : WellFormed users) (hu : u ∈ users) :
    users.find? (·.email = u.email) = some u := by
  cases hv : users.find? (·.email = u.email) with
  | none => exact absurd (List.find?_eq_none.mp hv u hu) (by simp)
  | some v =>
    have hsame : v.email = u.email := by simpa using List.find?_some hv
    rw [List.inj_on_of_nodup_map h.emails (List.mem_of_find?_eq_some hv) hu hsame]

theorem accounts_set_password (h : WellFormed users) (hu : u ∈ users) (password : Bytes) :
    accounts (set_password users u.id password) =
      Function.update (accounts users) u.email
        (some (account { u with password := password })) := by
  funext email
  have hfind : (set_password users u.id password).find? (·.email = email) =
      (users.find? (·.email = email)).map fun v =>
        if v.id = u.id then { v with password := password } else v := by
    rw [set_password, List.find?_map]
    congr 2
    funext v
    by_cases hv : v.id = u.id <;> simp [hv]
  rw [accounts, hfind, Option.map_map]
  by_cases hemail : email = u.email
  · subst hemail
    rw [find_email h hu, Function.update_self]
    simp
  · rw [Function.update_of_ne hemail, accounts]
    cases hv : users.find? (·.email = email) with
    | none => rfl
    | some v =>
      have hmem := List.mem_of_find?_eq_some hv
      have hsame : v.email = email := by simpa using List.find?_some hv
      have hne : v.id ≠ u.id := by
        intro hid
        have hvu := List.inj_on_of_nodup_map h.ids hmem hu hid
        rw [hvu] at hsame
        exact hemail hsame.symm
      simp [hne]

end Table

/-! ## A server -/

def reference_server (users : Users) (query : Bytes) : Option (List (List Bytes)) × Users :=
  match read apostrophe query with
  | some ⟨front, [(value, rest)]⟩ =>
    if front = bytes "SELECT id,password FROM users WHERE email=" ∧ rest = bytes " LIMIT 1" then
      (some (rows_of users value), users)
    else (none, users)
  | some ⟨front, [(password, middle), (id, [])]⟩ =>
    match read_decimal id with
    | some id =>
      if front = bytes "UPDATE users SET password=" ∧ middle = bytes " WHERE id=" then
        (some [], set_password users id password)
      else (none, users)
    | none => (none, users)
  | _ => (none, users)

theorem reference_server_answers : Server reference_server := by
  constructor
  · intro users query email hread
    simp [reference_server, hread, login_statement]
  · intro users query password id hread
    simp [reference_server, hread, update_statement, read_decimal_decimal]

open Classical in
/-- Services that hash and verify as the code does. -/
noncomputable def reference_services : Services where
  kore_pgsql_query_init := true
  kore_pgsql_query := fun _ _ => none
  argon2i_verify := fun encoded secret =>
    decide (∃ text, encoded = some text ∧ Verifies text secret secret.length .Argon2_i)
  argon2i_hash_encoded := fun _ _ _ secret salt => some (secret_text secret salt)
  random_string := []
  atoi := fun text => (read_decimal text).getD 0
  null_text := none

theorem reference_services_faithful : Faithful reference_services := by
  constructor
  · intro encoded secret sys accepted hserves h
    cases encoded with
    | none =>
      cases h
      simp [reference_services]
    | some text =>
      obtain ⟨hright, hall⟩ := crypt_password_verify_only h
      rw [Bool.eq_iff_iff, Iff.intro hright (hall hserves)]
      simp [reference_services]
  · intro secret salt sys r hsalt hserves h
    exact (crypt_password_hash_only hsalt h).resolve_right fun hnull => hnull.2 hserves
  · intro id _ _
    simp [reference_services, read_decimal_decimal]

def alice (salt : Bytes) : Attempt := ⟨bytes "alice", bytes "x", salt, true⟩

def alice_user : User := ⟨7, bytes "alice", secret_text (bytes "x") (bytes "somesaltsomesalt")⟩

theorem alice_wellFormed : WellFormed [alice_user] :=
  ⟨List.nodup_singleton _, List.nodup_singleton _, by
    intro u hu
    obtain rfl := List.mem_singleton.mp hu
    exact ⟨by decide, by decide⟩⟩

theorem alice_sound : ∀ a ∈ [alice (bytes "0123456789abcdef"), alice (bytes "fedcba9876543210")],
    Sound a := by
  intro a ha
  simp only [List.mem_cons, List.not_mem_nil, or_false] at ha
  rcases ha with rfl | rfl
  · exact ⟨by decide, by decide, by decide, by decide⟩
  · exact ⟨by decide, by decide, by decide, by decide⟩

/-! ## What a login leaves behind -/

section Bound

variable {known : Accounts} {a c : Attempt} {user secret : Bytes} {id : ℤ}

/-- The account is open to the secrets with one secret's tag. -/
def Bound (known : Accounts) (user secret : Bytes) (id : ℤ) : Prop :=
  ∃ account salt, known user = some account ∧ account.id = id ∧
    ∀ x, account.accepts x ↔ secret_tag x salt = secret_tag secret salt

theorem bound_of_success (h : (next known a).1 = id) (hid : id ≠ 0) :
    Bound (next known a).2 a.user a.secret id := by
  unfold next at h ⊢
  cases hknown : known a.user with
  | none =>
    rw [hknown] at h
    exact absurd h.symm hid
  | some account =>
    rw [hknown] at h
    simp only at h ⊢
    by_cases hok : a.connected ∧ account.accepts a.secret
    · rw [if_pos hok] at h ⊢
      refine ⟨_, a.salt, Function.update_self _ _ _, h, ?_⟩
      intro x
      exact Iff.rfl
    · rw [if_neg hok] at h
      exact absurd h.symm hid

/-- Secrets that share no tag. -/
def Apart (x y : Bytes) : Prop := ∀ salt, secret_tag x salt = secret_tag y salt → x = y

theorem bound_step (h : Bound known user secret id)
    (hapart : c.user = user → Apart c.secret secret) :
    Bound (next known c).2 user secret id := by
  obtain ⟨account, salt, hknown, hid, haccepts⟩ := h
  by_cases huser : c.user = user
  · subst huser
    unfold next
    simp only [hknown]
    by_cases hok : c.connected ∧ account.accepts c.secret
    · have hsecret : c.secret = secret := hapart rfl salt ((haccepts c.secret).mp hok.2)
      rw [if_pos hok]
      refine ⟨_, c.salt, Function.update_self _ _ _, hid, ?_⟩
      intro x
      rw [hsecret]
    · rw [if_neg hok]
      exact ⟨account, salt, hknown, hid, haccepts⟩
  · refine ⟨account, salt, ?_, hid, haccepts⟩
    unfold next
    cases hother : known c.user with
    | none => exact hknown
    | some other =>
      simp only
      by_cases hok : c.connected ∧ other.accepts c.secret
      · rw [if_pos hok]
        exact (Function.update_of_ne (Ne.symm huser) _ _).trans hknown
      · rw [if_neg hok]
        exact hknown

theorem bound_run (h : Bound known user secret id) {between : List Attempt}
    (hapart : ∀ c ∈ between, c.user = user → Apart c.secret secret) :
    Bound (spec next known between).2 user secret id := by
  induction between generalizing known with
  | nil => exact h
  | cons c between ih =>
    have hnext := bound_step h (hapart c List.mem_cons_self)
    exact ih hnext fun d hd => hapart d (List.mem_cons_of_mem c hd)

theorem bound_answer (h : Bound known c.user secret id) (hconnected : c.connected = true)
    (hapart : Apart c.secret secret) :
    (next known c).1 = if c.secret = secret then id else 0 := by
  obtain ⟨account, salt, hknown, hid, haccepts⟩ := h
  unfold next
  simp only [hknown, hconnected, true_and, haccepts]
  by_cases hsecret : c.secret = secret
  · rw [if_pos hsecret, if_pos (by rw [hsecret])]
    exact hid
  · rw [if_neg hsecret, if_neg fun htag => hsecret (hapart salt htag)]

end Bound

theorem alice_first : (next (accounts [alice_user]) (alice (bytes "0123456789abcdef"))).1 = 7 := by
  have hopens : (account alice_user).accepts (bytes "x") :=
    (verifies_text_iff (bytes "x") (bytes "x") (by decide)).mpr rfl
  have hknown : accounts [alice_user] (bytes "alice") = some (account alice_user) := rfl
  simp only [next, alice, hknown, hopens, and_self, if_true]
  rfl

theorem alice_second : (next (next (accounts [alice_user]) (alice (bytes "0123456789abcdef"))).2
    (alice (bytes "fedcba9876543210"))).1 = 7 := by
  have hbound : Bound (next (accounts [alice_user]) (alice (bytes "0123456789abcdef"))).2
      (bytes "alice") (bytes "x") 7 := bound_of_success alice_first (by decide)
  have hanswer := @bound_answer _ (alice (bytes "fedcba9876543210")) (bytes "x") 7 hbound rfl
    fun _ _ => rfl
  exact hanswer.trans (if_pos rfl)

theorem alice_answers : (spec next (accounts [alice_user])
    [alice (bytes "0123456789abcdef"), alice (bytes "fedcba9876543210")]).1 = [7, 7] :=
  congrArg₂ (fun x y => [x, y]) alice_first alice_second

/-! ## One login -/

section Login

variable {execute : Users → Bytes → Option (List (List Bytes)) × Users} {S : Services}
  {users : Users} {a : Attempt}

theorem faithful_verify (hS : Faithful S) (encoded secret : Bytes) :
    S.argon2i_verify (some encoded) secret = true ↔
      Verifies encoded secret secret.length .Argon2_i := by
  obtain ⟨schedule, accepted, h⟩ := crypt_password_verify_completes
    (willing_serves fun _ _ => []) (some encoded) secret
  have hserves := Argon2Fill.scheduled_serves (willing_serves fun _ _ => []) schedule
  rw [hS.verify _ _ _ _ hserves h]
  obtain ⟨hright, hall⟩ := crypt_password_verify_only h
  exact ⟨hright, hall hserves⟩

theorem faithful_hash (hS : Faithful S) (secret : Bytes) {salt : Bytes} (hsalt : salt.length = 16) :
    S.argon2i_hash_encoded T_COST M_COST P_COST secret salt = some (secret_text secret salt) := by
  have hserves := willing_serves fun _ _ => []
  obtain ⟨schedule, h⟩ := crypt_password_hash_completes secret hsalt hserves
  have hserves' := Argon2Fill.scheduled_serves hserves schedule
  exact (Except.ok.inj (hS.hash _ _ _ _ hsalt hserves' h)).symm

/-- No quote stands in the text of a hash, and it fits into the second statement. -/
theorem secret_text_plain (secret : Bytes) {salt : Bytes} (hsalt : salt.length = 16) :
    apostrophe ∉ secret_text secret salt ∧ (secret_text secret salt).length ≤ 128 := by
  constructor
  · intro h
    have hchar := Argon2Encoding.encoding_chars (hashed_filled secret hsalt) apostrophe h
    exact absurd hchar (by decide)
  · rw [secret_text_length secret hsalt]
    decide

theorem login_eq (hserver : Server execute) (hS : Faithful S) (hwf : WellFormed users)
    (h : Sound a) :
    login execute S users a = .ok (
      match users.find? (·.email = a.user) with
      | none => (0, users)
      | some u =>
        if a.connected ∧ S.argon2i_verify (some u.password) a.secret then
          (u.id, set_password users u.id (secret_text a.secret a.salt))
        else (0, users)) := by
  have hselect := hserver.select users _ a.user (select_read h)
  cases hconnected : a.connected with
  | false =>
    have hlogin : login execute S users a = .ok (0, users) := by
      simp [login, model_principal_auth, services, hconnected, after, Except.map]
    rw [hlogin]
    cases users.find? (·.email = a.user) <;> simp
  | true =>
    cases hfind : users.find? (·.email = a.user) with
    | none =>
      rw [rows_of_none hfind] at hselect
      simp [login, model_principal_auth, services, hconnected, after, hselect, Except.map]
    | some u =>
      rw [rows_of_find hfind] at hselect
      cases hverify : S.argon2i_verify (some u.password) a.secret with
      | false =>
        simp [login, model_principal_auth, services, hconnected, after, hselect, Except.map,
          LoginQuery.crypt_password_verify, hverify]
      | true =>
        obtain ⟨hlow, hhigh⟩ := hwf.range u (List.mem_of_find?_eq_some hfind)
        obtain ⟨hplain, hlen⟩ := secret_text_plain a.secret h.salt
        have hupdate := hserver.update users _ _ _ (update_read hplain hlen hlow hhigh)
        simp [login, model_principal_auth, services, hconnected, after, hselect, Except.map,
          LoginQuery.crypt_password_verify, hverify, LoginQuery.crypt_password_hash,
          faithful_hash hS a.secret h.salt, format_string, hS.atoi u.id hlow hhigh, hupdate]

def Stands (users : Users) (known : Accounts) : Prop := WellFormed users ∧ known = accounts users

theorem login_step {known : Accounts} (hserver : Server execute) (hS : Faithful S)
    (hR : Stands users known) (h : Sound a) :
    ∃ users', login execute S users a = .ok ((next known a).1, users') ∧
      Stands users' (next known a).2 := by
  obtain ⟨hwf, rfl⟩ := hR
  rw [login_eq hserver hS hwf h]
  cases hfind : users.find? (·.email = a.user) with
  | none =>
    have hknown : accounts users a.user = none := by rw [accounts, hfind, Option.map_none]
    refine ⟨users, ?_, hwf, ?_⟩
    · simp only [next, hknown]
    · simp only [next, hknown]
  | some u =>
    have hknown : accounts users a.user = some (account u) := by
      rw [accounts, hfind, Option.map_some]
    have hopens : S.argon2i_verify (some u.password) a.secret = true ↔
        (account u).accepts a.secret := faithful_verify hS u.password a.secret
    have hemail : u.email = a.user := by simpa using List.find?_some hfind
    by_cases hok : a.connected ∧ (account u).accepts a.secret
    · have hok' := hok
      rw [← hopens] at hok'
      refine ⟨set_password users u.id (secret_text a.secret a.salt), ?_,
        set_password_wellFormed hwf _ _, ?_⟩
      · simp only [next, hknown, if_pos hok, if_pos hok']
        rfl
      · rw [accounts_set_password hwf (List.mem_of_find?_eq_some hfind), hemail]
        simp only [next, hknown, if_pos hok]
        congr 2
        simp only [account, Account.mk.injEq, true_and]
        funext secret
        exact propext (verifies_text_iff a.secret secret h.salt).symm
    · have hok' := hok
      rw [← hopens] at hok'
      refine ⟨users, ?_, hwf, ?_⟩
      · simp only [next, hknown, if_neg hok, if_neg hok']
      · simp only [next, hknown, if_neg hok]

/-- Any run of logins gives the object ids that the accounts give, and leaves a table that stands
for their last state. -/
theorem login_runs_refine (hserver : Server execute) (hS : Faithful S) (hwf : WellFormed users)
    {attempts : List Attempt} (hsound : ∀ a ∈ attempts, Sound a) :
    ∃ users', run (login execute S) users attempts =
        .ok ((spec next (accounts users) attempts).1, users') ∧
      WellFormed users' ∧ accounts users' = (spec next (accounts users) attempts).2 := by
  have hstep : ∀ s t a, Stands s t → Sound a → ∃ s', login execute S s a = .ok ((next t a).1, s') ∧
      Stands s' (next t a).2 := fun s t a hR h => login_step hserver hS hR h
  obtain ⟨users', hrun, hwf', hstands⟩ := run_refines hstep ⟨hwf, rfl⟩
    (along_of_forall (fun a ha _ => hsound a ha) users)
  exact ⟨users', hrun, hwf', hstands.symm⟩

theorem login_runs_refine_alice : ∃ users',
    run (login reference_server reference_services) [alice_user]
      [alice (bytes "0123456789abcdef"), alice (bytes "fedcba9876543210")] =
      .ok ([7, 7], users') ∧ WellFormed users' := by
  obtain ⟨users', hrun, hwf, -⟩ := login_runs_refine reference_server_answers
    reference_services_faithful alice_wellFormed alice_sound
  refine ⟨users', ?_, hwf⟩
  rw [hrun, alice_answers]

end Login

/-! ## What binds an account -/

section Session

variable {execute : Users → Bytes → Option (List (List Bytes)) × Users} {S : Services}
  {users users' : Users} {past between : List Attempt} {a b : Attempt} {answers : List ℤ} {id : ℤ}

/-- In any run, a successful login binds the account to its secret: whatever was tried in between,
a later login of the same user with that secret gives the same object id, and with any other secret
that shares no tag with it gives none. -/
theorem login_binds (hserver : Server execute) (hS : Faithful S) (hwf : WellFormed users)
    (hsound : ∀ c ∈ past ++ a :: (between ++ [b]), Sound c)
    (hrun : run (login execute S) users (past ++ a :: (between ++ [b])) = .ok (answers, users'))
    (ha : answers[past.length]? = some id) (hid : id ≠ 0) (huser : b.user = a.user)
    (hconnected : b.connected = true)
    (hapart : ∀ c ∈ between ++ [b], c.user = a.user → Apart c.secret a.secret) :
    answers.getLast? = some (if b.secret = a.secret then id else 0) := by
  have hstep : ∀ s t c, Stands s t → Sound c → ∃ s', login execute S s c = .ok ((next t c).1, s') ∧
      Stands s' (next t c).2 := fun s t c hR h => login_step hserver hS hR h
  obtain ⟨_, hspec, -⟩ := run_refines hstep ⟨hwf, rfl⟩
    (along_of_forall (fun c hc _ => hsound c hc) users)
  rw [hrun] at hspec
  obtain ⟨rfl, -⟩ := Prod.mk.inj (Except.ok.inj hspec)
  have hsuccess : (next (spec next (accounts users) past).2 a).1 = id := by
    rw [spec_append, List.getElem?_append_right (Nat.le_of_eq (spec_length _ past)), spec_length,
      Nat.sub_self] at ha
    exact Option.some.inj ha
  have hbound := bound_run (bound_of_success hsuccess hid) fun c hc =>
    hapart c (List.mem_append_left [b] hc)
  have hsplit : past ++ a :: (between ++ [b]) = (past ++ a :: between) ++ [b] := by simp
  rw [← huser] at hbound
  rw [hsplit, spec_snoc, spec_append]
  refine congrArg some (bound_answer hbound hconnected ?_)
  exact hapart b (by simp) huser

theorem login_binds_alice : ∃ answers users',
    run (login reference_server reference_services) [alice_user]
      [alice (bytes "0123456789abcdef"), alice (bytes "fedcba9876543210")] =
      .ok (answers, users') ∧ answers.getLast? = some 7 := by
  have hstep : ∀ s t c, Stands s t → Sound c → ∃ s',
      login reference_server reference_services s c = .ok ((next t c).1, s') ∧
      Stands s' (next t c).2 := fun s t c hR h =>
    login_step reference_server_answers reference_services_faithful hR h
  obtain ⟨users', hrun, -⟩ := run_refines hstep ⟨alice_wellFormed, rfl⟩
    (along_of_forall (fun c hc _ => alice_sound c hc) [alice_user])
  have hlast := @login_binds _ _ [alice_user] users' [] [] (alice (bytes "0123456789abcdef"))
    (alice (bytes "fedcba9876543210")) _ 7 reference_server_answers reference_services_faithful
    alice_wellFormed alice_sound hrun (congrArg some alice_first) (by decide) rfl rfl (by
      intro c hc _ salt _
      obtain rfl := List.mem_singleton.mp hc
      rfl)
  exact ⟨_, users', hrun, hlast⟩

end Session

end LoginRuns
