import Ayahesa.CMemory
import Mathlib.Logic.Function.Iterate

/-! # The ChaCha stream

`chacha.c`, with the number of rounds and the length of the key as its callers choose them. One
block of the stream is added to a message of at most 64 bytes. -/
namespace ChaCha

open CMemory

abbrev Words := List UInt32

structure ChachaCtx where
  state : Words
  rounds : UInt8

def ROTATE (v c : UInt32) : UInt32 := (v <<< c) ||| (v >>> (32 - c))

def U32TO8_LITTLE (v : UInt32) : Bytes :=
  [v.toUInt8, (v >>> 8).toUInt8, (v >>> 16).toUInt8, (v >>> 24).toUInt8]

def U8TO32_LITTLE (p : Bytes) (i : ℕ) : UInt32 :=
  (p.getD i 0).toUInt32 ||| (p.getD (i + 1) 0).toUInt32 <<< 8 |||
    (p.getD (i + 2) 0).toUInt32 <<< 16 ||| (p.getD (i + 3) 0).toUInt32 <<< 24

/-! ## Rounds -/

/-- `x[a] = x[a] + x[b]; x[d] = (x[d] ^ x[a]) <<< c` -/
def ARX (a b d : ℕ) (c : UInt32) (x : Words) : Words :=
  let x := x.set a (x.getD a 0 + x.getD b 0)
  x.set d (ROTATE (x.getD d 0 ^^^ x.getD a 0) c)

def QUARTERROUND (x : Words) (a b c d : ℕ) : Words :=
  let x := ARX a b d 16 x
  let x := ARX c d b 12 x
  let x := ARX a b d 8 x
  ARX c d b 7 x

def doubleround (x : Words) : Words :=
  -- vertical
  let x := QUARTERROUND x 0 4 8 12
  let x := QUARTERROUND x 1 5 9 13
  let x := QUARTERROUND x 2 6 10 14
  let x := QUARTERROUND x 3 7 11 15
  -- diagonal
  let x := QUARTERROUND x 0 5 10 15
  let x := QUARTERROUND x 1 6 11 12
  let x := QUARTERROUND x 2 7 8 13
  QUARTERROUND x 3 4 9 14

/-- The counter goes down by two, so an odd number of rounds is one more. -/
def doublerounds (input : Words) (rounds : UInt8) : Bytes :=
  let x := doubleround^[(rounds.toNat + 1) / 2] input
  ((List.range 16).map fun i => U32TO8_LITTLE (x.getD i 0 + input.getD i 0)).flatten

/-! ## Keys and messages -/

def SIGMA : Bytes := bytes "expand 32-byte k"
def TAU : Bytes := bytes "expand 16-byte k"

/-- `memset` clears the first four words. -/
def chacha_init_ctx (ctx : ChachaCtx) (rounds : UInt8) : Proc ChachaCtx :=
  if rounds < 2 then .error (.abort [])
  else .ok ⟨List.replicate 4 0 ++ ctx.state.drop 4, rounds⟩

def chacha_init (ctx : ChachaCtx) (key : Bytes) (keylen : ℕ) (iv : Bytes) (counter : UInt32) :
    Proc ChachaCtx :=
  let words (p : Bytes) (is : List ℕ) := is.map fun i => U8TO32_LITTLE p (4 * i)
  let behind := [counter, 0, U8TO32_LITTLE iv 0, U8TO32_LITTLE iv 4]
  if keylen = 256 then
    let keys := words key [0, 1, 2, 3, 4, 5, 6, 7]
    .ok { ctx with state := words SIGMA [0, 1, 2, 3] ++ keys ++ behind }
  else if keylen = 128 then
    let keys := words key [0, 1, 2, 3, 0, 1, 2, 3]
    .ok { ctx with state := words TAU [0, 1, 2, 3] ++ keys ++ behind }
  else .error (.abort [])

/-- The block counter goes over two words. -/
def next_block (state : Words) : Words :=
  let state := state.set 12 (state.getD 12 0 + 1)
  if state.getD 12 0 = 0 then state.set 13 (state.getD 13 0 + 1) else state

def chacha_xor {len : ℕ} (ctx : ChachaCtx) (input : Vector UInt8 len) :
    Proc (ChachaCtx × Vector UInt8 len) :=
  if len > 64 then .error (.abort [])
  else
    let block := doublerounds ctx.state ctx.rounds
    .ok ({ ctx with state := next_block ctx.state },
      Vector.ofFn fun i => input[i] ^^^ block.getD i 0)

theorem chacha_xor_ok {len : ℕ} (ctx : ChachaCtx) (input : Vector UInt8 len) (h : len ≤ 64) :
    ∃ ctx' output, chacha_xor ctx input = .ok (ctx', output) :=
  ⟨_, _, if_neg (Nat.not_lt.mpr h)⟩

/-- What was encrypted is decrypted from the same context. -/
theorem chacha_xor_twice {len : ℕ} {ctx ctx' : ChachaCtx} {input output : Vector UInt8 len}
    (h : chacha_xor ctx input = .ok (ctx', output)) :
    chacha_xor ctx output = .ok (ctx', input) := by
  unfold chacha_xor at h ⊢
  split at h
  · cases h
  · next hlen =>
    rw [if_neg hlen]
    obtain ⟨rfl, rfl⟩ := Prod.mk.inj (Except.ok.inj h)
    have hback : (Vector.ofFn fun i : Fin len =>
        (Vector.ofFn fun j : Fin len =>
          input[j] ^^^ (doublerounds ctx.state ctx.rounds).getD j 0)[i] ^^^
          (doublerounds ctx.state ctx.rounds).getD i 0) = input := by
      apply Vector.ext
      intro i hi
      simp only [Vector.getElem_ofFn, Fin.getElem_fin, UInt8.xor_assoc, UInt8.xor_self,
        UInt8.xor_zero]
    simp only [hback]

end ChaCha
