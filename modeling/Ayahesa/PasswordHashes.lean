import Ayahesa.Argon2Encoding
import Ayahesa.LoginQuery

/-! # Hashing and verifying passwords

`argon2_hash` and `argon2_verify`, and the two functions of `crypt.c` over them, on a system that
may refuse memory and threads. -/
namespace PasswordHashes

open CMemory CompatCopy Argon2Hash Argon2Fill Argon2Base64 Argon2Encoding
open Argon2Memory (Argon2Type)
open LoginQuery (T_COST M_COST P_COST)

/-! ## `argon2.c` -/

def argon2_compare (b1 b2 : Bytes) (len : ℕ) : Int32 :=
  let d := ((b1.take len).zip (b2.take len)).foldl (fun d b => d ||| (b.1 ^^^ b.2)) (0 : UInt8)
  ((1 : Int32) &&& ((Int32.ofNat d.toNat - 1) >>> 8)) - 1

def argon2_verify_ctx (context : Argon2Context) (hash : Bytes) (type : Argon2Type)
    (sys : System) : Call Unit := do
  let out ← argon2_ctx context type sys
  if argon2_compare hash out context.outlen ≠ 0 then throw .ARGON2_VERIFY_MISMATCH

/-- The context that a text is read into: no field can be longer than the text. -/
def reader (encoded_len : ℕ) (pwd : Bytes) (pwdlen : ℕ) : Argon2Context where
  out := some []
  outlen := u32 encoded_len
  pwd := some pwd
  pwdlen := u32 pwdlen
  salt := some []
  saltlen := u32 encoded_len
  secret := none
  secretlen := u32 0
  ad := none
  adlen := u32 0
  t_cost := u32 0
  m_cost := u32 0
  lanes := u32 0
  threads := u32 0
  version := u32 0

/-- The tag that was read is set aside, and the new one is computed into another buffer. -/
def argon2_verify (encoded : Option Bytes) (pwd : Bytes) (pwdlen : ℕ) (type : Argon2Type)
    (sys : System) : Call Unit :=
  match encoded with
  | none => throw .ARGON2_DECODING_FAIL
  | some encoded => do
    if 2 ^ 32 - 1 < encoded.length then throw .ARGON2_DECODING_FAIL
    allocate sys .salt
    allocate sys .out
    let ctx ← ExceptT.mk (some (decode_string (reader encoded.length pwd pwdlen) encoded type))
    allocate sys .new_out
    argon2_verify_ctx { ctx with out := some [] } (ctx.out.getD []) type sys

def hash_context (t_cost m_cost parallelism : U32) (pwd : Bytes) (pwdlen : ℕ) (salt : Bytes)
    (saltlen hashlen : ℕ) (version : U32) : Argon2Context where
  out := some []
  outlen := u32 hashlen
  pwd := some pwd
  pwdlen := u32 pwdlen
  salt := some salt
  saltlen := u32 saltlen
  secret := none
  secretlen := u32 0
  ad := none
  adlen := u32 0
  t_cost := t_cost
  m_cost := m_cost
  lanes := parallelism
  threads := parallelism
  version := version

def write_encoded (context : Argon2Context) (type : Argon2Type) (encoded : Option Block)
    (encodedlen : ℕ) (out : Bytes) : Call (C (Bytes × Option Block)) :=
  match encoded with
  | none => return .ok (out, none)
  | some d =>
    if encodedlen = 0 then return .ok (out, some d)
    else match encode_string d encodedlen { context with out := some out } type with
      | .error fault => return .error fault
      | .ok (.error _) => throw .ARGON2_ENCODING_FAIL
      | .ok (.ok d) => return .ok (out, some d)

/-- The tag, and what is in the buffer for the text afterwards if there is one. -/
def argon2_hash (t_cost m_cost parallelism : U32) (pwd : Bytes) (pwdlen : ℕ) (salt : Bytes)
    (saltlen hashlen : ℕ) (encoded : Option Block) (encodedlen : ℕ) (type : Argon2Type)
    (version : U32) (sys : System) : Call (C (Bytes × Option Block)) := do
  if 2 ^ 32 - 1 < hashlen then throw .ARGON2_OUTPUT_TOO_LONG
  if hashlen < ARGON2_MIN_OUTLEN then throw .ARGON2_OUTPUT_TOO_SHORT
  allocate sys .out
  let context := hash_context t_cost m_cost parallelism pwd pwdlen salt saltlen hashlen version
  let out ← argon2_ctx context type sys
  write_encoded context type encoded encodedlen out

def argon2i_hash_encoded (t_cost m_cost parallelism : U32) (pwd : Bytes) (pwdlen : ℕ)
    (salt : Bytes) (saltlen hashlen : ℕ) (encoded : Option Block) (encodedlen : ℕ)
    (sys : System) : Call (C (Bytes × Option Block)) :=
  argon2_hash t_cost m_cost parallelism pwd pwdlen salt saltlen hashlen encoded encodedlen
    .Argon2_i (u32 ARGON2_VERSION_NUMBER) sys

def argon2i_verify (encoded : Option Bytes) (pwd : Bytes) (pwdlen : ℕ) (sys : System) :
    Call Unit :=
  argon2_verify encoded pwd pwdlen .Argon2_i sys

/-! ## `crypt.c` -/

def encodedlen : ℕ :=
  argon2_encodedlen (u32 T_COST) (u32 M_COST) (u32 P_COST) (u32 16) (u32 32) .Argon2_i

/-- The text of the hash, or NULL; `none` as for a call. -/
def crypt_password_hash (secret salt : Bytes) (sys : System) : Option (C (Option Bytes)) := do
  let encoded := aya_malloc encodedlen
  match ← (argon2i_hash_encoded (u32 T_COST) (u32 M_COST) (u32 P_COST) secret secret.length salt 16
    32 (some encoded) encodedlen sys).run with
  | .error _ => return .ok none
  | .ok hashed => return do
    match ← hashed with
    | (_, some encoded) => return some (← contents encoded)
    | (_, none) => return none

def crypt_password_verify (encoded : Option Bytes) (secret : Bytes) (sys : System) :
    Option Bool := do
  match ← (argon2i_verify encoded secret secret.length sys).run with
  | .error _ => return false
  | .ok () => return true

/-! ## Verifying -/

theorem or_eq_zero {x y : UInt8} : x ||| y = 0 ↔ x = 0 ∧ y = 0 := by
  rw [← UInt8.toNat_inj, ← UInt8.toNat_inj, ← UInt8.toNat_inj, UInt8.toNat_or]
  exact Nat.or_eq_zero_iff

theorem differences_eq_zero {b1 b2 : Bytes} (hlen : b1.length = b2.length) (d : UInt8) :
    (b1.zip b2).foldl (fun d b => d ||| (b.1 ^^^ b.2)) d = 0 ↔ d = 0 ∧ b1 = b2 := by
  induction b1 generalizing b2 d with
  | nil =>
    obtain rfl := List.length_eq_zero_iff.mp hlen.symm
    simp
  | cons x b1 ih =>
    cases b2 with
    | nil => cases hlen
    | cons y b2 =>
      rw [List.zip_cons_cons, List.foldl_cons, ih (Nat.succ.inj hlen), or_eq_zero,
        UInt8.xor_eq_zero_iff, List.cons.injEq, and_assoc]

theorem argon2_compare_eq_zero {b1 b2 : Bytes} {len : ℕ} (h1 : b1.length = len)
    (h2 : b2.length = len) : argon2_compare b1 b2 len = 0 ↔ b1 = b2 := by
  have hbits : ∀ d < 256, ((1 : Int32) &&& ((Int32.ofNat d - 1) >>> 8)) - 1 = 0 ↔ d = 0 := by
    decide +kernel
  have hall := @differences_eq_zero b1 b2 (h1.trans h2.symm) 0
  have htake1 : b1.take len = b1 := by rw [← h1, List.take_length]
  have htake2 : b2.take len = b2 := by rw [← h2, List.take_length]
  rw [argon2_compare, htake1, htake2, hbits _ (UInt8.toNat_lt _), ← UInt8.toNat_zero,
    UInt8.toNat_inj, hall]
  exact and_iff_right rfl

section Verify

variable {encoded pwd : Bytes} {pwdlen : ℕ} {type : Argon2Type} {sys : System}

/-- The text holds the tag of the password under its own parameters. -/
def Verifies (encoded pwd : Bytes) (pwdlen : ℕ) (type : Argon2Type) : Prop :=
  ∃ f : Fields, encoded.length < 2 ^ 32 ∧ f.Readable encoded.length encoded.length ∧
    encoded = f.text type ∧
    validate_inputs (f.context (reader encoded.length pwd pwdlen)) = .ok () ∧
    argon2_tag (f.context (reader encoded.length pwd pwdlen)) type = octets f.out

theorem verify_ctx_ok {context : Argon2Context} {hash : Bytes}
    (hvalid : validate_inputs context = .ok ()) (hthreads : context.threads ≤ context.lanes)
    (hlen : hash.length = context.outlen)
    (h : (argon2_verify_ctx context hash type sys).run = some (.ok ())) :
    argon2_tag context type = hash := by
  obtain ⟨out, hctx, hsame⟩ := bind_run_ok.mp h
  obtain rfl := argon2_ctx_ok hvalid hthreads hctx
  have hzero := argon2_compare_eq_zero hlen (argon2_tag_length type hvalid)
  split at hsame
  · cases hsame
  · next heq => exact (hzero.mp (not_not.mp heq)).symm

theorem verify_ctx_blameless {context : Argon2Context}
    (hvalid : validate_inputs context = .ok ()) (hthreads : context.threads ≤ context.lanes)
    (sys : System) :
    Blameless sys (argon2_verify_ctx context (argon2_tag context type) type sys) := by
  intro e h
  obtain h | ⟨out, hctx, h⟩ := bind_run_error.mp h
  · exact argon2_ctx_blameless type hvalid sys e h
  · obtain rfl := argon2_ctx_ok hvalid hthreads hctx
    have hlen := argon2_tag_length type hvalid
    rw [if_neg (not_not.mpr ((argon2_compare_eq_zero hlen hlen).mpr rfl))] at h
    cases h

theorem verify_ctx_completes {context : Argon2Context} (hvalid : validate_inputs context = .ok ())
    (hthreads : context.threads ≤ context.lanes) (hserves : sys.Serves) (hash : Bytes) :
    ∃ schedule r, (argon2_verify_ctx context hash type (scheduled sys schedule)).run = some r := by
  obtain ⟨schedule, hctx⟩ := argon2_ctx_completes type hvalid hthreads hserves
  refine ⟨schedule, ?_⟩
  rw [argon2_verify_ctx, hctx, pure_bind]
  by_cases hne : argon2_compare hash (argon2_tag context type) context.outlen ≠ 0
  · exact ⟨_, congrArg ExceptT.run (if_pos hne)⟩
  · exact ⟨_, congrArg ExceptT.run (if_neg hne)⟩

structure Spells (encoded pwd : Bytes) (pwdlen : ℕ) (type : Argon2Type) (f : Fields) : Prop where
  length : encoded.length < 2 ^ 32
  readable : f.Readable encoded.length encoded.length
  text : encoded = f.text type
  valid : validate_inputs (f.context (reader encoded.length pwd pwdlen)) = .ok ()

theorem decode_reader_iff (hlen : encoded.length < 2 ^ 32) {ctx : Argon2Context} :
    decode_string (reader encoded.length pwd pwdlen) encoded type = .ok ctx ↔ ∃ f,
      Spells encoded pwd pwdlen type f ∧ ctx = f.context (reader encoded.length pwd pwdlen) := by
  have hlen' : (u32 encoded.length : ℕ) = encoded.length := u32_eq_iff.mpr (by omega)
  have hsaltlen : ((reader encoded.length pwd pwdlen).saltlen : ℕ) = encoded.length := hlen'
  have houtlen : ((reader encoded.length pwd pwdlen).outlen : ℕ) = encoded.length := hlen'
  rw [decode_string_iff, hsaltlen, houtlen]
  constructor
  · rintro ⟨f, hf, htext, rfl, hvalid⟩
    exact ⟨f, ⟨hlen, hf, htext, hvalid⟩, rfl⟩
  · rintro ⟨f, h, rfl⟩
    exact ⟨f, h.readable, h.text, rfl, h.valid⟩

theorem verifies_iff : Verifies encoded pwd pwdlen type ↔ ∃ f, Spells encoded pwd pwdlen type f ∧
    argon2_tag (f.context (reader encoded.length pwd pwdlen)) type = octets f.out := by
  constructor
  · rintro ⟨f, hlen, hf, htext, hvalid, htag⟩
    exact ⟨f, ⟨hlen, hf, htext, hvalid⟩, htag⟩
  · rintro ⟨f, h, htag⟩
    exact ⟨f, h.length, h.readable, h.text, h.valid, htag⟩

theorem argon2_verify_spelled {f : Fields} (h : Spells encoded pwd pwdlen type f) (sys : System) :
    argon2_verify (some encoded) pwd pwdlen type sys =
      allocate sys .salt >>= fun _ => allocate sys .out >>= fun _ =>
        allocate sys .new_out >>= fun _ => argon2_verify_ctx
          { f.context (reader encoded.length pwd pwdlen) with out := some [] } (octets f.out) type
          sys := by
  have hlen := h.length
  have hread : decode_string (reader encoded.length pwd pwdlen) encoded type =
      .ok (f.context (reader encoded.length pwd pwdlen)) :=
    (decode_reader_iff hlen).mpr ⟨f, h, rfl⟩
  rw [argon2_verify, if_neg (by omega), hread]
  rfl

/-- A text that is accepted, and one that spells the tag. -/
theorem argon2_verify_only {r : Except Argon2ErrorCode Unit}
    (h : (argon2_verify (some encoded) pwd pwdlen type sys).run = some r) :
    (r = .ok () → Verifies encoded pwd pwdlen type) ∧
    (Verifies encoded pwd pwdlen type → r = .ok () ∨ ∃ e, r = .error e ∧ sys.Fails e) := by
  constructor
  · rintro rfl
    have hshort : encoded.length < 2 ^ 32 := by
      by_contra hlong
      rw [argon2_verify, if_pos (by omega)] at h
      cases h
    have hspells : ∃ f, Spells encoded pwd pwdlen type f := by
      rw [argon2_verify, if_neg (by omega)] at h
      obtain ⟨-, -, h⟩ := bind_run_ok.mp h
      obtain ⟨-, -, h⟩ := bind_run_ok.mp h
      obtain ⟨ctx, hread, -⟩ := bind_run_ok.mp h
      obtain ⟨f, hf, -⟩ := (decode_reader_iff hshort).mp (Option.some.inj hread)
      exact ⟨f, hf⟩
    obtain ⟨f, hf⟩ := hspells
    rw [argon2_verify_spelled hf] at h
    obtain ⟨-, -, h⟩ := bind_run_ok.mp h
    obtain ⟨-, -, h⟩ := bind_run_ok.mp h
    obtain ⟨-, -, h⟩ := bind_run_ok.mp h
    have hlen : (u32 encoded.length : ℕ) = encoded.length := u32_eq_iff.mpr (by omega)
    have hread := hf.readable
    rw [← hlen] at hread
    have hfilled := @context_filled (reader encoded.length pwd pwdlen) f _ _ hread
    exact verifies_iff.mpr ⟨f, hf, verify_ctx_ok hf.valid (Nat.le_refl _) hfilled.outlen h⟩
  · intro hverifies
    obtain ⟨f, hf, htag⟩ := verifies_iff.mp hverifies
    have hblameless : Blameless sys (argon2_verify (some encoded) pwd pwdlen type sys) := by
      rw [argon2_verify_spelled hf, ← htag]
      exact (allocate_blameless sys .salt).bind fun _ => (allocate_blameless sys .out).bind fun _ =>
        (allocate_blameless sys .new_out).bind fun _ =>
          verify_ctx_blameless hf.valid (Nat.le_refl _) sys
    cases r with
    | ok u => exact .inl rfl
    | error e => exact .inr ⟨e, rfl, hblameless e h⟩

theorem argon2_verify_completes (hserves : sys.Serves) (encoded : Option Bytes) (pwd : Bytes)
    (pwdlen : ℕ) (type : Argon2Type) : ∃ schedule r,
    (argon2_verify encoded pwd pwdlen type (scheduled sys schedule)).run = some r := by
  cases encoded with
  | none => exact ⟨fun _ _ => [], _, rfl⟩
  | some encoded =>
    by_cases hlong : 2 ^ 32 - 1 < encoded.length
    · exact ⟨fun _ _ => [], _, congrArg ExceptT.run (if_pos hlong)⟩
    · have hserved := fun schedule => allocate_ok (scheduled_serves hserves schedule)
      cases hread : decode_string (reader encoded.length pwd pwdlen) encoded type with
      | error e =>
        refine ⟨fun _ _ => [], .error e, ?_⟩
        rw [argon2_verify, if_neg hlong, hserved, hserved, hread]
        rfl
      | ok ctx =>
        obtain ⟨f, hf, rfl⟩ := (decode_reader_iff (by omega)).mp hread
        obtain ⟨schedule, r, hverify⟩ := @verify_ctx_completes type sys
          { f.context (reader encoded.length pwd pwdlen) with out := some [] } hf.valid
          (Nat.le_refl _) hserves (octets f.out)
        refine ⟨schedule, r, ?_⟩
        rw [argon2_verify_spelled hf, hserved, hserved, hserved]
        exact hverify

/-- A text is accepted for a password only if it spells parameters that pass the checks, a salt and
the tag that these give for the password; whatever the memory held and however the threads took
turns. Such a text is accepted unless memory or a thread is refused, and where the system serves
every call can come to its end. -/
theorem argon2_verify_iff (encoded pwd : Bytes) (pwdlen : ℕ) (type : Argon2Type) :
    (∀ sys r, (argon2_verify (some encoded) pwd pwdlen type sys).run = some r →
      (r = .ok () → Verifies encoded pwd pwdlen type) ∧
      (Verifies encoded pwd pwdlen type → r = .ok () ∨ ∃ e, r = .error e ∧ sys.Fails e)) ∧
    ∀ sys : System, sys.Serves → ∃ schedule r,
      (argon2_verify (some encoded) pwd pwdlen type (scheduled sys schedule)).run = some r := by
  constructor
  · intro sys r h
    exact argon2_verify_only h
  · intro sys hserves
    exact argon2_verify_completes hserves (some encoded) pwd pwdlen type

end Verify

/-! ## A hash and the secrets that it accepts -/

section Crypt

variable {secret salt : Bytes} {sys : System}

def secret_context (secret salt : Bytes) : Argon2Context :=
  hash_context (u32 T_COST) (u32 M_COST) (u32 P_COST) secret secret.length salt 16 32
    (u32 ARGON2_VERSION_NUMBER)

def secret_tag (secret salt : Bytes) : Bytes := argon2_tag (secret_context secret salt) .Argon2_i

def hashed_context (secret salt : Bytes) : Argon2Context :=
  { secret_context secret salt with out := some (secret_tag secret salt) }

def secret_text (secret salt : Bytes) : Bytes := encoding (hashed_context secret salt) .Argon2_i

theorem secret_valid (secret salt : Bytes) :
    validate_inputs (secret_context secret salt) = .ok () := rfl

theorem hashed_valid (secret salt : Bytes) :
    validate_inputs (hashed_context secret salt) = .ok () := rfl

theorem hashed_filled (secret : Bytes) (hsalt : salt.length = 16) :
    Filled (hashed_context secret salt) salt (secret_tag secret salt) :=
  ⟨rfl, hsalt, rfl, argon2_tag_length .Argon2_i (secret_valid secret salt)⟩

theorem encodedlen_secret : encodedlen = 93 := by
  simp only [encodedlen, argon2_encodedlen, numlen_eq]
  decide

theorem secret_text_length (secret : Bytes) (hsalt : salt.length = 16) :
    (secret_text secret salt).length = 92 := by
  have hlen : encodedlen = (secret_text secret salt).length + 1 :=
    encodedlen_eq (hashed_filled secret hsalt) rfl
  rw [encodedlen_secret] at hlen
  omega

theorem hashed_eq (secret : Bytes) (hsalt : salt.length = 16) :
    encode_string
      (aya_malloc encodedlen) encodedlen (hashed_context secret salt) .Argon2_i =
      .ok (.ok (terminated (secret_text secret salt))) := by
  have hlen := secret_text_length secret hsalt
  have hencodedlen := encodedlen_secret
  rw [encode_string_eq (Nat.le_of_eq (aya_malloc_length _).symm) (hashed_valid secret salt),
    if_neg, List.drop_eq_nil_of_le, List.append_nil]
  · rfl
  · rw [aya_malloc_length]
    change _ ≤ (secret_text secret salt).length + 1
    omega
  · change ¬_ ≤ (secret_text secret salt).length
    omega

theorem contents_text (secret : Bytes) (hsalt : salt.length = 16) :
    contents (terminated (secret_text secret salt)) = .ok (secret_text secret salt) := by
  have hclean := @encoding_clean _ .Argon2_i _ _ (hashed_filled secret hsalt)
  have hread := contents_terminated hclean []
  rwa [List.append_nil] at hread

theorem write_encoded_eq (secret : Bytes) (hsalt : salt.length = 16) :
    write_encoded (secret_context secret salt) .Argon2_i
      (some (aya_malloc encodedlen)) encodedlen (secret_tag secret salt) =
      pure (.ok (secret_tag secret salt, some (terminated (secret_text secret salt)))) := by
  have hne : encodedlen ≠ 0 := by
    rw [encodedlen_secret]
    decide
  have hwritten := hashed_eq secret hsalt
  rw [hashed_context] at hwritten
  simp only [write_encoded, hne, if_false, hwritten]

theorem hash_encoded_eq (secret salt : Bytes) (encoded : Option Block) (encodedlen : ℕ)
    (sys : System) :
    argon2i_hash_encoded (u32 T_COST) (u32 M_COST) (u32 P_COST) secret secret.length salt 16 32
      encoded encodedlen sys =
      allocate sys .out >>= fun _ => argon2_ctx (secret_context secret salt) .Argon2_i sys >>=
        write_encoded (secret_context secret salt) .Argon2_i encoded encodedlen := by
  rw [argon2i_hash_encoded, argon2_hash, if_neg (by decide), if_neg (by decide)]
  rfl

theorem hash_encoded_only (hsalt : salt.length = 16)
    {r : Except Argon2ErrorCode (C (Bytes × Option Block))}
    (h : (argon2i_hash_encoded (u32 T_COST) (u32 M_COST) (u32 P_COST) secret secret.length salt 16
      32 (some (aya_malloc encodedlen)) encodedlen sys).run = some r) :
    r = .ok (.ok (secret_tag secret salt, some (terminated (secret_text secret salt)))) ∨
      ∃ e, r = .error e ∧ sys.Fails e := by
  have hvalid := secret_valid secret salt
  rw [hash_encoded_eq] at h
  cases r with
  | ok written =>
    obtain ⟨-, -, h⟩ := bind_run_ok.mp h
    obtain ⟨out, hctx, h⟩ := bind_run_ok.mp h
    have hout : out = secret_tag secret salt := argon2_ctx_ok hvalid (Nat.le_refl _) hctx
    rw [hout, write_encoded_eq secret hsalt] at h
    simp only [ExceptT.run_pure, Option.pure_def, Option.some.injEq, Except.ok.injEq] at h
    rw [← h]
    exact .inl rfl
  | error e =>
    refine .inr ⟨e, rfl, ?_⟩
    obtain h | ⟨-, -, h⟩ := bind_run_error.mp h
    · exact allocate_blameless sys .out e h
    obtain h | ⟨out, hctx, h⟩ := bind_run_error.mp h
    · exact argon2_ctx_blameless .Argon2_i hvalid sys e h
    · have hout : out = secret_tag secret salt := argon2_ctx_ok hvalid (Nat.le_refl _) hctx
      rw [hout, write_encoded_eq secret hsalt] at h
      simp only [ExceptT.run_pure, Option.pure_def, Option.some.injEq, reduceCtorEq] at h

/-- A hash is the one text or NULL, and NULL only where the system refuses something. -/
theorem crypt_password_hash_only (hsalt : salt.length = 16) {r : C (Option Bytes)}
    (h : crypt_password_hash secret salt sys = some r) :
    r = .ok (some (secret_text secret salt)) ∨ r = .ok none ∧ ¬sys.Serves := by
  obtain ⟨hashed, hcall, hr⟩ := Option.bind_eq_some_iff.mp h
  obtain rfl | ⟨e, rfl, hfails⟩ := hash_encoded_only hsalt hcall
  · have hread := contents_text secret hsalt
    change some (contents (terminated (secret_text secret salt)) >>= _) = _ at hr
    rw [hread] at hr
    exact .inl (Option.some.inj hr).symm
  · exact .inr ⟨(Option.some.inj hr).symm, fun hserves => hserves e hfails⟩

theorem crypt_password_hash_completes (secret : Bytes) (hsalt : salt.length = 16)
    (hserves : sys.Serves) : ∃ schedule, crypt_password_hash secret salt (scheduled sys schedule) =
      some (.ok (some (secret_text secret salt))) := by
  obtain ⟨schedule, hctx⟩ := argon2_ctx_completes .Argon2_i (secret_valid secret salt)
    (Nat.le_refl _) hserves
  refine ⟨schedule, ?_⟩
  rw [crypt_password_hash, hash_encoded_eq, allocate_ok (scheduled_serves hserves schedule), hctx,
    pure_bind, pure_bind, ← secret_tag, write_encoded_eq secret hsalt]
  change some (contents (terminated (secret_text secret salt)) >>= _) = _
  rw [contents_text secret hsalt]
  rfl

theorem argon2_tag_out (context : Argon2Context) (out : Option Bytes) (type : Argon2Type) :
    argon2_tag { context with out := out } type = argon2_tag context type := rfl

theorem text_context (secret secret' : Bytes) (hsalt : salt.length = 16) (n : ℕ) :
    (fields (hashed_context secret salt) salt (secret_tag secret salt)).context
      (reader n secret' secret'.length) =
    { secret_context secret' salt with out := some (secret_tag secret salt) } := by
  have hlen : (secret_tag secret salt).length = 32 := (hashed_filled secret hsalt).outlen
  rw [fields_context, decoded, hsalt, hlen]
  rfl

theorem verifies_text_iff (secret secret' : Bytes) (hsalt : salt.length = 16) :
    Verifies (secret_text secret salt) secret' secret'.length .Argon2_i ↔
      secret_tag secret' salt = secret_tag secret salt := by
  have hfilled := hashed_filled secret hsalt
  have htext : secret_text secret salt =
      (fields (hashed_context secret salt) salt (secret_tag secret salt)).text .Argon2_i :=
    encoding_fields hfilled
  have hlen := secret_text_length secret hsalt
  have hread : (fields (hashed_context secret salt) salt (secret_tag secret salt)).Readable
      (secret_text secret salt).length (secret_text secret salt).length := by
    have hout := hfilled.outlen
    change _ = 32 at hout
    exact fields_readable (by omega) (by omega)
  have hout := @fields_out (hashed_context secret salt) salt (secret_tag secret salt)
  constructor
  · rintro ⟨f, -, hf, hsame, -, htag⟩
    obtain rfl := text_injective hread hf (htext.symm.trans hsame)
    rw [text_context secret secret' hsalt, argon2_tag_out, hout] at htag
    exact htag
  · intro htag
    refine ⟨fields (hashed_context secret salt) salt (secret_tag secret salt), by omega, hread,
      htext, ?_, ?_⟩
    · rw [fields_context]
      exact decoded_valid (hashed_valid secret salt) hfilled nofun
    · rw [text_context secret secret' hsalt, argon2_tag_out, hout]
      exact htag

theorem crypt_password_verify_only {encoded : Bytes} {accepted : Bool}
    (h : crypt_password_verify (some encoded) secret sys = some accepted) :
    (accepted = true → Verifies encoded secret secret.length .Argon2_i) ∧
    (sys.Serves → Verifies encoded secret secret.length .Argon2_i → accepted = true) := by
  obtain ⟨r, hverify, hr⟩ := Option.bind_eq_some_iff.mp h
  obtain ⟨hright, hall⟩ := argon2_verify_only hverify
  cases r with
  | error e =>
    obtain rfl : false = accepted := Option.some.inj hr
    refine ⟨nofun, fun hserves hverifies => ?_⟩
    obtain herror | ⟨e', -, hfails⟩ := hall hverifies
    · cases herror
    · exact absurd hfails (hserves e')
  | ok u =>
    obtain rfl : true = accepted := Option.some.inj hr
    exact ⟨fun _ => hright rfl, fun _ _ => rfl⟩

theorem crypt_password_verify_completes (hserves : sys.Serves) (encoded : Option Bytes)
    (secret : Bytes) : ∃ schedule accepted,
    crypt_password_verify encoded secret (scheduled sys schedule) = some accepted := by
  obtain ⟨schedule, r, hverify⟩ := argon2_verify_completes hserves encoded secret secret.length
    .Argon2_i
  refine ⟨schedule, ?_⟩
  rw [crypt_password_verify, argon2i_verify, hverify]
  cases r with
  | error e => exact ⟨false, rfl⟩
  | ok u => exact ⟨true, rfl⟩

/-- Every call of the hash gives one text for a secret and a salt, or NULL where memory or a thread
is refused, and a call of the verification accepts this text only for the secrets with the same
tag under the salt: for these always unless something is refused, and so for the secret itself. -/
theorem crypt_password_round_trip (secret : Bytes) (hsalt : salt.length = 16) : ∃ encoded,
    (∀ sys : System, sys.Serves → ∃ schedule,
      crypt_password_hash secret salt (scheduled sys schedule) = some (.ok (some encoded))) ∧
    (∀ sys r, crypt_password_hash secret salt sys = some r →
      r = .ok (some encoded) ∨ r = .ok none ∧ ¬sys.Serves) ∧
    ∀ secret' sys accepted, crypt_password_verify (some encoded) secret' sys = some accepted →
      (accepted = true → secret_tag secret' salt = secret_tag secret salt) ∧
      (sys.Serves → secret_tag secret' salt = secret_tag secret salt → accepted = true) := by
  refine ⟨secret_text secret salt, ?_, ?_, ?_⟩
  · intro sys hserves
    exact crypt_password_hash_completes secret hsalt hserves
  · intro sys r h
    exact crypt_password_hash_only hsalt h
  · intro secret' sys accepted h
    rw [← verifies_text_iff secret secret' hsalt]
    exact crypt_password_verify_only h

theorem crypt_password_round_trip_password : ∃ encoded,
    (∃ schedule, crypt_password_hash (bytes "password") (bytes "somesaltsomesalt")
      (willing schedule) = some (.ok (some encoded))) ∧
    (∀ schedule r, crypt_password_hash (bytes "password") (bytes "somesaltsomesalt")
      (willing schedule) = some r → r = .ok (some encoded)) ∧
    ∀ schedule accepted,
      crypt_password_verify (some encoded) (bytes "password") (willing schedule) = some accepted →
      accepted = true := by
  obtain ⟨encoded, hcompletes, honly, hverify⟩ :=
    @crypt_password_round_trip (bytes "somesaltsomesalt") (bytes "password") (by decide)
  refine ⟨encoded, hcompletes (willing fun _ _ => []) (willing_serves _), ?_, ?_⟩
  · intro schedule r h
    exact (honly _ r h).resolve_right fun hnull => hnull.2 (willing_serves schedule)
  · intro schedule accepted h
    exact (hverify (bytes "password") _ accepted h).2 (willing_serves schedule) rfl

end Crypt

end PasswordHashes
