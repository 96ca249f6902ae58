import Ayahesa.ChaCha
import Ayahesa.JwtToken

/-! # Identifiers with a time, a category and a tag

`quid.c`. An identifier carries the time it was made at, and an encrypted node with its flags,
its category and a tag of three characters. A new identifier is always of revision 7, since the
structure is wiped before its version is looked at. -/
namespace QuidIdentifier

open CMemory ChaCha JwtToken

def QUID_REV4 : UInt8 := 0x10
def QUID_REV7 : UInt8 := 0x12

def VERSION_REV4 : UInt16 := 0xa000
def VERSION_REV7 : UInt16 := 0xb000

def QUIDMAGIC : UInt8 := 0x80

def EPOCH_DIFF : UInt64 := 11644473600

def padding : Vector UInt8 3 := #v[0x12, 0x82, 0x7b]

/-- An identifier in memory has its version beside it. -/
structure Quid extends Cuuid where
  version : UInt8

def wiped : Quid where
  time_low := 0
  time_mid := 0
  time_hi_and_version := 0
  clock_seq_hi_and_reserved := 0
  clock_seq_low := 0
  node := Vector.replicate 6 0
  version := 0

/-! ## The node -/

def stretched_key (prekey : UInt64) : Bytes :=
  let b₀ := prekey.toUInt8
  let b₁ := (prekey >>> 8).toUInt8
  let b₂ := (prekey >>> 16).toUInt8
  let b₃ := (prekey >>> 24).toUInt8
  [0x0, b₀ ||| b₂, b₀ ^^^ b₁, b₀,
    0x1, b₁ ||| b₃, b₁ ^^^ b₂, b₁,
    0x2, b₂ ||| b₀, b₂ ^^^ b₃, b₂,
    0x3, b₃ ||| b₁, b₃ ^^^ b₀, b₃]

def derived_iv (preiv1 preiv2 : UInt8) : Bytes :=
  [0x0, 0x1, preiv1 ^^^ preiv2, preiv1, 0x4, 0x5, preiv2 &&& preiv1, preiv2]

/-- A context on the stack. All of it is set before it is read. -/
def unset : ChachaCtx := ⟨List.replicate 16 0, 0⟩

def prepare_stream (prekey : UInt64) (preiv1 preiv2 : UInt8) : Proc ChachaCtx := do
  let ctx ← chacha_init_ctx unset 4
  chacha_init ctx (stretched_key prekey) 128 (derived_iv preiv1 preiv2) 0

def encrypt_node (prekey : UInt64) (preiv1 preiv2 : UInt8) (node : Vector UInt8 6) :
    Proc (Vector UInt8 6) := do
  let ctx ← prepare_stream prekey preiv1 preiv2
  let (_, node) ← chacha_xor ctx node
  return node

def Quid.encrypted (u : Quid) : Proc (Vector UInt8 6) :=
  encrypt_node u.time_low u.clock_seq_hi_and_reserved u.clock_seq_low u.node

/-! ## Making identifiers -/

def format_quid_rev7 (uid : Quid) (clock_seq : UInt16) (timestamp : UInt64) : Quid :=
  { uid with
    time_low := timestamp &&& 0xffffffff
    time_mid := ((timestamp >>> 32) &&& 0xffff).toUInt16
    time_hi_and_version :=
      (((timestamp >>> 48) &&& 0xfff).toUInt16 ^^^ QUIDMAGIC.toUInt16) ||| VERSION_REV7
    clock_seq_low := (clock_seq &&& 0xff).toUInt8
    clock_seq_hi_and_reserved := ((clock_seq &&& 0x4e00) >>> 8).toUInt8 ||| QUIDMAGIC }

/-- A tag that is passed counts if none of its characters is NUL. -/
def node_tag : Option (Vector UInt8 3) → Vector UInt8 3
  | some tag => if tag[0] ≠ 0 ∧ tag[1] ≠ 0 ∧ tag[2] ≠ 0 then tag else padding
  | none => padding

def plain_node (flag subc : UInt8) (tag : Option (Vector UInt8 3)) : Vector UInt8 6 :=
  let tag := node_tag tag
  #v[QUID_REV7, flag, subc, tag[0], tag[1], tag[2]]

def quid_create_rev7 (uid : Quid) (timestamp : UInt64) (clockseq : UInt16) (flag subc : UInt8)
    (tag : Option (Vector UInt8 3)) : Proc Quid := do
  let uid := format_quid_rev7 uid clockseq timestamp
  let node ← encrypt_node uid.time_low uid.clock_seq_hi_and_reserved uid.clock_seq_low
    (plain_node flag subc tag)
  return { uid with node := node }

/-- The time and the clock sequence are what `get_current_time` and `true_random` return. -/
def quid_create (timestamp : UInt64) (clockseq : UInt16) (flag subc : UInt8)
    (tag : Option (Vector UInt8 3)) : Proc Quid :=
  quid_create_rev7 { wiped with version := QUID_REV7 } timestamp clockseq flag subc tag

/-! ## Reading identifiers -/

structure Timeval where
  tv_sec : Int64
  tv_usec : Int64
  deriving DecidableEq

def cuuid_time (u : Quid) : UInt64 :=
  let versubtr : UInt16 :=
    if u.version = QUID_REV4 then VERSION_REV4
    else if u.version = QUID_REV7 then VERSION_REV7
    else 0
  u.time_low ||| u.time_mid.toUInt64 <<< 32 |||
    ((u.time_hi_and_version ^^^ QUIDMAGIC.toUInt16).toUInt64 - versubtr.toUInt64) <<< 48

def timeval (time : UInt64) : Timeval :=
  let usec := time / 10 % 1000000
  ⟨((time / 10 - usec) / 1000000 - EPOCH_DIFF).toInt64, usec.toInt64⟩

def quid_timeval (u : Quid) : Timeval := timeval (cuuid_time u)

/-- A text, or the static array of three characters, which has no NUL behind it. -/
inductive TagText where
  | text (s : Bytes)
  | static (tag : Vector UInt8 3)
  deriving DecidableEq

def quid_tag (u : Quid) : Proc TagText :=
  if u.version ≠ QUID_REV7 then .ok (.text (bytes "Not implemented"))
  else do
    let node ← u.encrypted
    if node[0] ≠ QUID_REV7 then return .text (bytes "Invalid")
    else if node[3] = padding[0] ∧ node[4] = padding[1] ∧ node[5] = padding[2] then
      return .text (bytes "None")
    else return .static #v[node[3], node[4], node[5]]

/-- A byte of the node: plain in revision 4, encrypted in revision 7. -/
def node_byte (byte : Vector UInt8 6 → UInt8) (u : Quid) : Proc UInt8 :=
  if u.version = QUID_REV4 then .ok (byte u.node)
  else if u.version = QUID_REV7 then do return byte (← u.encrypted)
  else .ok 0

def quid_category : Quid → Proc UInt8 := node_byte fun node => node[2]

def quid_flag : Quid → Proc UInt8 := node_byte fun node => node[1]

/-- In any version, these must be filled. -/
def filled (u : Cuuid) : Bool := u.node[2] ≠ 0 ∧ u.node[5] ≠ 0

def fields (u : Cuuid) : List ℕ :=
  [u.time_low.toNat, u.time_mid.toNat, u.time_hi_and_version.toNat,
    u.clock_seq_hi_and_reserved.toNat, u.clock_seq_low.toNat, u.node[0].toNat, u.node[1].toNat,
    u.node[2].toNat, u.node[3].toNat, u.node[4].toNat, u.node[5].toNat]

theorem node_toList (node : Vector UInt8 6) :
    node.toList = [node[0], node[1], node[2], node[3], node[4], node[5]] := by
  rcases node with ⟨⟨l⟩, hl⟩
  match l, hl with
  | [_, _, _, _, _, _], _ => rfl

/-! ## What is read is what was put in -/

theorem prepare_stream_ok (prekey : UInt64) (preiv1 preiv2 : UInt8) :
    ∃ ctx, prepare_stream prekey preiv1 preiv2 = .ok ctx := by
  have hrounds : chacha_init_ctx unset 4 = .ok ⟨List.replicate 4 0 ++ unset.state.drop 4, 4⟩ :=
    if_neg (by decide)
  unfold prepare_stream
  rw [hrounds]
  exact ⟨_, rfl⟩

/-- Encrypting never aborts, and a second time is back to the plain node. -/
theorem encrypt_node_ok (prekey : UInt64) (preiv1 preiv2 : UInt8) (node : Vector UInt8 6) :
    ∃ node', encrypt_node prekey preiv1 preiv2 node = .ok node' ∧
      encrypt_node prekey preiv1 preiv2 node' = .ok node := by
  obtain ⟨ctx, hctx⟩ := prepare_stream_ok prekey preiv1 preiv2
  obtain ⟨ctx', node', hxor⟩ := chacha_xor_ok ctx node (by decide)
  refine ⟨node', ?_, ?_⟩
  · rw [encrypt_node, hctx]
    simp only [hxor, bind, Except.bind, pure, Except.pure]
  · rw [encrypt_node, hctx]
    simp only [chacha_xor_twice hxor, bind, Except.bind, pure, Except.pure]

section Time

/-- Bits above a number are added to it. -/
theorem or_shiftLeft {a i : ℕ} (b : ℕ) (h : a < 2 ^ i) : a ||| b <<< i = a + 2 ^ i * b := by
  rw [Nat.or_comm, Nat.shiftLeft_eq, Nat.mul_comm, ← Nat.two_pow_add_eq_or_of_lt h, Nat.add_comm]

theorem sixty_bits (n : ℕ) :
    n % 2 ^ 32 ||| (n / 2 ^ 32 % 2 ^ 16) <<< 32 % 2 ^ 64 ||| (n / 2 ^ 48 % 2 ^ 12) <<< 48 % 2 ^ 64 =
      n % 2 ^ 60 := by
  have hmid : (n / 2 ^ 32 % 2 ^ 16) <<< 32 < 2 ^ 64 := by
    rw [Nat.shiftLeft_eq]
    omega
  have hhi : (n / 2 ^ 48 % 2 ^ 12) <<< 48 < 2 ^ 64 := by
    rw [Nat.shiftLeft_eq]
    omega
  have hfirst : n % 2 ^ 32 ||| (n / 2 ^ 32 % 2 ^ 16) <<< 32 =
      n % 2 ^ 32 + 2 ^ 32 * (n / 2 ^ 32 % 2 ^ 16) := or_shiftLeft _ (Nat.mod_lt _ (by decide))
  rw [Nat.mod_eq_of_lt hmid, Nat.mod_eq_of_lt hhi, hfirst, or_shiftLeft _ (by omega)]
  omega

/-- The magic is taken off again, and the version subtracted. -/
theorem version_off {y : UInt16} (h : y.toNat < 4096) :
    (((y ^^^ QUIDMAGIC.toUInt16) ||| VERSION_REV7) ^^^ QUIDMAGIC.toUInt16).toUInt64 -
      VERSION_REV7.toUInt64 = y.toUInt64 := by
  have hall : ∀ a < 16, ∀ b < 256,
      (((UInt16.ofNat (256 * a + b) ^^^ QUIDMAGIC.toUInt16) ||| VERSION_REV7) ^^^
        QUIDMAGIC.toUInt16).toUInt64 - VERSION_REV7.toUInt64 =
        (UInt16.ofNat (256 * a + b)).toUInt64 := by decide +kernel
  have hy := hall (y.toNat / 256) (by omega) (y.toNat % 256) (by omega)
  rw [Nat.div_add_mod, UInt16.ofNat_toNat] at hy
  exact hy

variable (t : UInt64)

theorem time_low_toNat : (t &&& (0xffffffff : UInt64)).toNat = t.toNat % 2 ^ 32 := by
  rw [UInt64.toNat_and]
  exact Nat.and_two_pow_sub_one_eq_mod t.toNat 32

theorem time_mid_toNat :
    ((t >>> 32) &&& (0xffff : UInt64)).toUInt16.toNat = t.toNat / 2 ^ 32 % 2 ^ 16 := by
  have hshift : (t >>> 32).toNat = t.toNat / 2 ^ 32 := by
    rw [UInt64.toNat_shiftRight, ← Nat.shiftRight_eq_div_pow]
    rfl
  have hmask := Nat.and_two_pow_sub_one_eq_mod (t.toNat / 2 ^ 32) 16
  rw [UInt64.toNat_toUInt16, UInt64.toNat_and, hshift]
  exact (congrArg (· % 2 ^ 16) hmask).trans (Nat.mod_mod _ _)

theorem time_hi_toNat :
    ((t >>> 48) &&& (0xfff : UInt64)).toUInt16.toNat = t.toNat / 2 ^ 48 % 2 ^ 12 := by
  have hshift : (t >>> 48).toNat = t.toNat / 2 ^ 48 := by
    rw [UInt64.toNat_shiftRight, ← Nat.shiftRight_eq_div_pow]
    rfl
  have hmask : t.toNat / 2 ^ 48 &&& (0xfff : UInt64).toNat = t.toNat / 2 ^ 48 % 2 ^ 12 :=
    Nat.and_two_pow_sub_one_eq_mod (t.toNat / 2 ^ 48) 12
  rw [UInt64.toNat_toUInt16, UInt64.toNat_and, hshift, hmask]
  exact Nat.mod_eq_of_lt (by omega)

/-- The identifier holds sixty bits of the time. -/
theorem cuuid_time_format {uid : Quid} (huid : uid.version = QUID_REV7) (clock_seq : UInt16) :
    (cuuid_time (format_quid_rev7 uid clock_seq t)).toNat = t.toNat % 2 ^ 60 := by
  have hhi := time_hi_toNat t
  have hlow := time_low_toNat t
  have hmid := time_mid_toNat t
  have hversion : ¬(format_quid_rev7 uid clock_seq t).version = QUID_REV4 := by
    change ¬uid.version = QUID_REV4
    rw [huid]
    decide
  have hoff := @version_off ((t >>> 48) &&& (0xfff : UInt64)).toUInt16 (by omega)
  simp only [cuuid_time, if_neg hversion]
  rw [if_pos (show (format_quid_rev7 uid clock_seq t).version = QUID_REV7 from huid)]
  simp only [format_quid_rev7, hoff, UInt64.toNat_or, UInt64.toNat_shiftLeft,
    UInt16.toNat_toUInt64, hlow, hmid, hhi]
  exact sixty_bits t.toNat

end Time

section Create

variable (timestamp : UInt64) (clockseq : UInt16) (flag subc : UInt8)
  (tag : Option (Vector UInt8 3))

def formatted : Quid :=
  format_quid_rev7 { wiped with version := QUID_REV7 } clockseq timestamp

theorem quid_create_ok : ∃ node,
    quid_create timestamp clockseq flag subc tag =
      .ok { formatted timestamp clockseq with node := node } ∧
    ({ formatted timestamp clockseq with node := node } : Quid).encrypted =
      .ok (plain_node flag subc tag) := by
  let uid := formatted timestamp clockseq
  obtain ⟨node, hnode, hback⟩ := encrypt_node_ok uid.time_low uid.clock_seq_hi_and_reserved
    uid.clock_seq_low (plain_node flag subc tag)
  refine ⟨node, ?_, hback⟩
  rw [quid_create, quid_create_rev7]
  change (encrypt_node uid.time_low uid.clock_seq_hi_and_reserved uid.clock_seq_low
    (plain_node flag subc tag) >>= fun node => .ok { uid with node := node }) = _
  rw [hnode]
  rfl

end Create

section Read

variable {u : Quid} {flag subc : UInt8} {tag : Option (Vector UInt8 3)}

theorem node_byte_encrypted {node : Vector UInt8 6} (hversion : u.version = QUID_REV7)
    (hnode : u.encrypted = .ok node) (byte : Vector UInt8 6 → UInt8) :
    node_byte byte u = .ok (byte node) := by
  rw [node_byte, hversion, if_neg (by decide), if_pos rfl, hnode]
  rfl

def tag_text (tag : Option (Vector UInt8 3)) : TagText :=
  if node_tag tag = padding then .text (bytes "None") else .static (node_tag tag)

theorem eq_of_three {v w : Vector UInt8 3} (h₀ : v[0] = w[0]) (h₁ : v[1] = w[1])
    (h₂ : v[2] = w[2]) : v = w := by
  apply Vector.ext
  intro i hi
  match i, hi with
  | 0, _ => exact h₀
  | 1, _ => exact h₁
  | 2, _ => exact h₂

theorem quid_tag_encrypted (hversion : u.version = QUID_REV7)
    (hnode : u.encrypted = .ok (plain_node flag subc tag)) :
    quid_tag u = .ok (tag_text tag) := by
  rw [quid_tag, if_neg (not_not_intro hversion), hnode]
  change (if QUID_REV7 ≠ QUID_REV7 then (.ok (.text (bytes "Invalid")) : Proc TagText)
    else if (node_tag tag)[0] = padding[0] ∧
      (node_tag tag)[1] = padding[1] ∧ (node_tag tag)[2] = padding[2] then
      .ok (.text (bytes "None"))
    else .ok (.static #v[(node_tag tag)[0], (node_tag tag)[1], (node_tag tag)[2]])) = _
  rw [if_neg (not_not_intro rfl), tag_text]
  by_cases h : node_tag tag = padding
  · rw [if_pos h, if_pos]
    rw [h]
    exact ⟨rfl, rfl, rfl⟩
  · have hthree : ¬((node_tag tag)[0] = padding[0] ∧ (node_tag tag)[1] = padding[1] ∧
        (node_tag tag)[2] = padding[2]) := fun ⟨h₀, h₁, h₂⟩ => h (eq_of_three h₀ h₁ h₂)
    have hcopy : #v[(node_tag tag)[0], (node_tag tag)[1], (node_tag tag)[2]] = node_tag tag :=
      eq_of_three rfl rfl rfl
    rw [if_neg h, if_neg hthree, hcopy]

end Read

end QuidIdentifier
