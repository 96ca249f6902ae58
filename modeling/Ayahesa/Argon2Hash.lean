import Ayahesa.Argon2Memory
import Ayahesa.Blake2b

/-! # The hash of a password

`core.c` and `argon2_ctx`. -/
namespace Argon2Hash

open CMemory InterleavedThreads Thread Argon2Memory Blake2b

def ARGON2_BLOCK_SIZE : ℕ := 1024
def ARGON2_PREHASH_DIGEST_LENGTH : ℕ := 64
def ARGON2_VERSION_NUMBER : ℕ := 0x13

def ARGON2_MAX_LANES : ℕ := 0xFFFFFF
def ARGON2_MAX_THREADS : ℕ := 0xFFFFFF
def ARGON2_MIN_OUTLEN : ℕ := 4
def ARGON2_MIN_MEMORY : ℕ := 2 * ARGON2_SYNC_POINTS
def ARGON2_MIN_SALT_LENGTH : ℕ := 8

inductive Argon2ErrorCode where
  | ARGON2_OUTPUT_PTR_NULL
  | ARGON2_OUTPUT_TOO_SHORT
  | ARGON2_OUTPUT_TOO_LONG
  | ARGON2_PWD_PTR_MISMATCH
  | ARGON2_SALT_PTR_MISMATCH
  | ARGON2_SALT_TOO_SHORT
  | ARGON2_SECRET_PTR_MISMATCH
  | ARGON2_AD_PTR_MISMATCH
  | ARGON2_MEMORY_TOO_LITTLE
  | ARGON2_TIME_TOO_SMALL
  | ARGON2_LANES_TOO_FEW
  | ARGON2_LANES_TOO_MANY
  | ARGON2_THREADS_TOO_FEW
  | ARGON2_THREADS_TOO_MANY
  | ARGON2_MEMORY_ALLOCATION_ERROR
  | ARGON2_THREAD_FAIL
  | ARGON2_ENCODING_FAIL
  | ARGON2_DECODING_FAIL
  | ARGON2_VERIFY_MISMATCH
  deriving DecidableEq, Repr

abbrev U32 := Fin (2 ^ 32)

def u32 (n : ℕ) : U32 := Fin.ofNat (2 ^ 32) n

structure Argon2Context where
  out : Option Bytes
  outlen : U32
  pwd : Option Bytes
  pwdlen : U32
  salt : Option Bytes
  saltlen : U32
  secret : Option Bytes
  secretlen : U32
  ad : Option Bytes
  adlen : U32
  t_cost : U32
  m_cost : U32
  lanes : U32
  threads : U32
  version : U32

def refuse (failed : Prop) [Decidable failed] (e : Argon2ErrorCode) : Except Argon2ErrorCode Unit :=
  if failed then .error e else .ok ()

/-- The checks in their order. The upper bounds that are the largest value of the type always
hold, and no context of this program has callbacks. -/
def validate_inputs (context : Argon2Context) : Except Argon2ErrorCode Unit := do
  refuse (context.out = none) .ARGON2_OUTPUT_PTR_NULL
  refuse (ARGON2_MIN_OUTLEN > context.outlen) .ARGON2_OUTPUT_TOO_SHORT
  refuse (context.pwd = none ∧ (context.pwdlen : ℕ) ≠ 0) .ARGON2_PWD_PTR_MISMATCH
  refuse (context.salt = none ∧ (context.saltlen : ℕ) ≠ 0) .ARGON2_SALT_PTR_MISMATCH
  refuse (ARGON2_MIN_SALT_LENGTH > context.saltlen) .ARGON2_SALT_TOO_SHORT
  refuse (context.secret = none ∧ (context.secretlen : ℕ) ≠ 0) .ARGON2_SECRET_PTR_MISMATCH
  refuse (context.ad = none ∧ (context.adlen : ℕ) ≠ 0) .ARGON2_AD_PTR_MISMATCH
  refuse (ARGON2_MIN_MEMORY > context.m_cost) .ARGON2_MEMORY_TOO_LITTLE
  refuse ((context.m_cost : ℕ) < as_uint32 (8 * context.lanes)) .ARGON2_MEMORY_TOO_LITTLE
  refuse (1 > (context.t_cost : ℕ)) .ARGON2_TIME_TOO_SMALL
  refuse (1 > (context.lanes : ℕ)) .ARGON2_LANES_TOO_FEW
  refuse (ARGON2_MAX_LANES < context.lanes) .ARGON2_LANES_TOO_MANY
  refuse (1 > (context.threads : ℕ)) .ARGON2_THREADS_TOO_FEW
  refuse (ARGON2_MAX_THREADS < context.threads) .ARGON2_THREADS_TOO_MANY

def argon2_instance (context : Argon2Context) (type : Argon2Type) : Instance :=
  let least := as_uint32 (2 * ARGON2_SYNC_POINTS * context.lanes)
  let memory_blocks := if (context.m_cost : ℕ) < least then least else context.m_cost
  let segment_length := memory_blocks / as_uint32 (context.lanes * ARGON2_SYNC_POINTS)
  { version := context.version
    passes := context.t_cost
    memory_blocks := as_uint32 (segment_length * as_uint32 (context.lanes * ARGON2_SYNC_POINTS))
    segment_length := segment_length
    lane_length := as_uint32 (segment_length * ARGON2_SYNC_POINTS)
    lanes := context.lanes
    threads := context.threads
    type := type }

/-! ## The system -/

inductive Allocation where
  | salt
  | out
  | new_out
  | memory
  | thread
  | thr_data
  deriving DecidableEq, Repr

/-- Which allocations succeed, what the allocator leaves in the blocks, which threads of a pass
and a slice are not started or not joined, and which of the threads goes on next there. -/
structure System where
  allocates : Allocation → Bool
  memory : Cell → UInt64
  refuses : ℕ → ℕ → Order ℕ → Bool
  schedule : ℕ → ℕ → List (Option ℕ)

/-- What fails in a call that answers so. -/
inductive System.Fails (sys : System) : Argon2ErrorCode → Prop where
  | allocation (a : Allocation) (h : sys.allocates a = false) :
      sys.Fails .ARGON2_MEMORY_ALLOCATION_ERROR
  | thread (pass slice : ℕ) (order : Order ℕ) (h : sys.refuses pass slice order = true) :
      sys.Fails .ARGON2_THREAD_FAIL

def System.Serves (sys : System) : Prop := ∀ e, ¬sys.Fails e

/-- A call on the system; `none` means that the schedule ends before it does. -/
abbrev Call (α : Type) : Type := ExceptT Argon2ErrorCode Option α

def allocate (sys : System) (a : Allocation) : Call Unit :=
  if sys.allocates a then pure () else throw .ARGON2_MEMORY_ALLOCATION_ERROR

/-! ## The first blocks -/

def sized (input : Option Bytes) (len : U32) : List Bytes :=
  store32 len :: (input.map fun data => data.take len).toList

def initial_input (context : Argon2Context) (type : Argon2Type) : List Bytes :=
  [store32 context.lanes, store32 context.outlen, store32 context.m_cost, store32 context.t_cost,
    store32 context.version, store32 type.code] ++ sized context.pwd context.pwdlen ++
    sized context.salt context.saltlen ++ sized context.secret context.secretlen ++
    sized context.ad context.adlen

/-- The results of the calls in here are not looked at, and none of them fails. -/
def initial_hash (context : Argon2Context) (type : Argon2Type) : Option Bytes := do
  let BlakeHash ← blake2b_init ARGON2_PREHASH_DIGEST_LENGTH
  let BlakeHash ← (initial_input context type).foldlM blake2b_update BlakeHash
  let (blockhash, _) ← blake2b_final BlakeHash ARGON2_PREHASH_DIGEST_LENGTH
  return blockhash

def load_block (dst : ℕ) (input : Bytes) : Access Unit :=
  (List.finRange 128).forM fun i => store (dst, i) (load64 (input.drop (i * 8)))

def store_block (src : Block) : Bytes := src.toList.flatMap store64

/-- The block `G(H0||i||l)`. -/
def first_block (blockhash : Bytes) (i l : ℕ) : Bytes :=
  (blake2b_long ARGON2_BLOCK_SIZE (blockhash ++ store32 i ++ store32 l)).getD []

def fill_first_blocks (inst : Instance) (blockhash : Bytes) : Access Unit :=
  (List.range inst.lanes).forM fun l => do
    load_block (as_uint32 (l * inst.lane_length + 0)) (first_block blockhash 0 l)
    load_block (as_uint32 (l * inst.lane_length + 1)) (first_block blockhash 1 l)

/-! ## The passes -/

def slice_orders (inst : Instance) : List (Order ℕ) :=
  (List.range inst.lanes).flatMap (fun l =>
    (if inst.threads ≤ l then [.join (l - inst.threads)] else []) ++ [.spawn l]) ++
  ((List.range inst.lanes).filter (as_uint32 (inst.lanes - inst.threads) ≤ ·)).map .join

def slice_body (inst : Instance) (pass slice : ℕ) (l : ℕ) : Access Unit :=
  fill_segment inst ⟨pass, l, slice, 0⟩

def made_orders (inst : Instance) (sys : System) (pass slice : ℕ) : List (Order ℕ) :=
  (slice_orders inst).takeWhile fun order => !sys.refuses pass slice order

def fill_slice (inst : Instance) (sys : System) (pass slice : ℕ) (memory : Cell → UInt64) :
    Call (Cell → UInt64) :=
  let made := made_orders inst sys pass slice
  let pool := (Pool.start made memory).play (slice_body inst pass slice) (sys.schedule pass slice)
  if pool.orders ≠ [] then ExceptT.mk none
  else if made.length < (slice_orders inst).length then throw .ARGON2_THREAD_FAIL
  else pure pool.memory

def fill_pass (inst : Instance) (sys : System) (pass : ℕ) (memory : Cell → UInt64) :
    Call (Cell → UInt64) :=
  (List.range ARGON2_SYNC_POINTS).foldlM (fun memory s => fill_slice inst sys pass s memory) memory

def fill_memory_blocks (inst : Instance) (sys : System) (memory : Cell → UInt64) :
    Call (Cell → UInt64) := do
  if inst.lanes = 0 then throw .ARGON2_THREAD_FAIL
  allocate sys .thread
  allocate sys .thr_data
  (List.range inst.passes).foldlM (fun memory r => fill_pass inst sys r memory) memory

/-! ## The tag -/

def last_block (inst : Instance) : Access Block := do
  let blockhash ← copy_block (as_uint32 (inst.lane_length - 1))
  (List.range' 1 (inst.lanes - 1)).foldlM
    (fun blockhash (l : ℕ) =>
      xor_block blockhash (as_uint32 (l * inst.lane_length + (inst.lane_length - 1)))) blockhash

def finalize (context : Argon2Context) (inst : Instance) (memory : Cell → UInt64) :
    Option Bytes :=
  blake2b_long context.outlen (store_block ((last_block inst).exec memory).1)

/-- The size of the memory does not overflow, for there are fewer than `2 ^ 32` blocks. -/
def argon2_ctx (context : Argon2Context) (type : Argon2Type) (sys : System) : Call Bytes := do
  ExceptT.mk (some (validate_inputs context))
  let inst := argon2_instance context type
  allocate sys .memory
  let blockhash ← ExceptT.lift (initial_hash context type)
  let memory := ((fill_first_blocks inst blockhash).exec sys.memory).2
  let memory ← fill_memory_blocks inst sys memory
  ExceptT.lift (finalize context inst memory)

end Argon2Hash
