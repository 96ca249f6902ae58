import Ayahesa.BufferedBlocks
import Ayahesa.CMemory

/-! # BLAKE2b in pieces

`blake2b.c`. A message may come in pieces of any length; a full block waits in the buffer until
more of the message comes. An object is smaller than 2^63 bytes, so no size in here wraps. -/
namespace Blake2b

open CMemory

def BLAKE2B_BLOCKBYTES : ℕ := 128
def BLAKE2B_OUTBYTES : ℕ := 64
def BLAKE2B_KEYBYTES : ℕ := 64

def blake2b_IV : Vector UInt64 8 := #v[
  0x6a09e667f3bcc908, 0xbb67ae8584caa73b, 0x3c6ef372fe94f82b, 0xa54ff53a5f1d36f1,
  0x510e527fade682d1, 0x9b05688c2b3e6c1f, 0x1f83d9abfb41bd6b, 0x5be0cd19137e2179]

def blake2b_sigma : Vector (Vector (Fin 16) 16) 12 := #v[
  #v[0, 1, 2, 3, 4, 5, 6, 7, 8, 9, 10, 11, 12, 13, 14, 15],
  #v[14, 10, 4, 8, 9, 15, 13, 6, 1, 12, 0, 2, 11, 7, 5, 3],
  #v[11, 8, 12, 0, 5, 2, 15, 13, 10, 14, 3, 6, 7, 1, 9, 4],
  #v[7, 9, 3, 1, 13, 12, 11, 14, 2, 6, 5, 10, 4, 0, 15, 8],
  #v[9, 0, 5, 7, 2, 4, 10, 15, 14, 1, 11, 12, 6, 8, 3, 13],
  #v[2, 12, 6, 10, 0, 11, 8, 3, 4, 13, 7, 5, 15, 14, 1, 9],
  #v[12, 5, 1, 15, 14, 13, 4, 10, 0, 7, 6, 3, 9, 2, 8, 11],
  #v[13, 11, 7, 14, 12, 1, 3, 9, 5, 0, 15, 4, 8, 6, 2, 10],
  #v[6, 15, 14, 9, 11, 3, 0, 8, 12, 2, 13, 7, 1, 4, 10, 5],
  #v[10, 2, 8, 4, 7, 6, 1, 5, 15, 11, 9, 14, 3, 12, 13, 0],
  #v[0, 1, 2, 3, 4, 5, 6, 7, 8, 9, 10, 11, 12, 13, 14, 15],
  #v[14, 10, 4, 8, 9, 15, 13, 6, 1, 12, 0, 2, 11, 7, 5, 3]]

/-! ## Words in little-endian order -/

def load64 (src : Bytes) : UInt64 :=
  (src.take 8).foldr (fun b w => w <<< 8 ||| b.toUInt64) 0

def store64 (w : UInt64) : Bytes := (List.range 8).map fun i => (w >>> (8 * i).toUInt64).toUInt8

def store32 (w : ℕ) : Bytes := (List.range 4).map fun i => (w / 256 ^ i % 256).toUInt8

def rotr64 (w : UInt64) (c : UInt64) : UInt64 := (w >>> c) ||| (w <<< (64 - c))

/-! ## The compression function -/

/-- The bytes of the buffer behind its first `buflen` are never read. -/
structure State where
  h : Vector UInt64 8
  t₀ : UInt64
  t₁ : UInt64
  f₀ : UInt64
  f₁ : UInt64
  buf : Bytes
  outlen : ℕ
  last_node : Bool

def G (m : Vector UInt64 16) (r : Fin 12) (i : Fin 8) (v : Vector UInt64 16) (a b c d : Fin 16) :
    Vector UInt64 16 :=
  let sigma := blake2b_sigma.get r
  let v := v.set a (v.get a + v.get b + m.get (sigma.get (Fin.ofNat 16 (2 * i))))
  let v := v.set d (rotr64 (v.get d ^^^ v.get a) 32)
  let v := v.set c (v.get c + v.get d)
  let v := v.set b (rotr64 (v.get b ^^^ v.get c) 24)
  let v := v.set a (v.get a + v.get b + m.get (sigma.get (Fin.ofNat 16 (2 * i + 1))))
  let v := v.set d (rotr64 (v.get d ^^^ v.get a) 16)
  let v := v.set c (v.get c + v.get d)
  v.set b (rotr64 (v.get b ^^^ v.get c) 63)

def ROUND (m v : Vector UInt64 16) (r : Fin 12) : Vector UInt64 16 :=
  let v := G m r 0 v 0 4 8 12
  let v := G m r 1 v 1 5 9 13
  let v := G m r 2 v 2 6 10 14
  let v := G m r 3 v 3 7 11 15
  let v := G m r 4 v 0 5 10 15
  let v := G m r 5 v 1 6 11 12
  let v := G m r 6 v 2 7 8 13
  G m r 7 v 3 4 9 14

def compress (h : Vector UInt64 8) (t₀ t₁ f₀ f₁ : UInt64) (block : Bytes) : Vector UInt64 8 :=
  let m := Vector.ofFn fun i : Fin 16 => load64 (block.drop (i * 8))
  let v : Vector UInt64 16 := h ++ blake2b_IV
  let v := v.set 12 (v.get 12 ^^^ t₀)
  let v := v.set 13 (v.get 13 ^^^ t₁)
  let v := v.set 14 (v.get 14 ^^^ f₀)
  let v := v.set 15 (v.get 15 ^^^ f₁)
  let v := (List.finRange 12).foldl (ROUND m) v
  Vector.ofFn fun i : Fin 8 => h.get i ^^^ v.get (i.castLE (by decide)) ^^^ v.get (i.natAdd 8)

def blake2b_compress (S : State) (block : Bytes) : State :=
  { S with h := compress S.h S.t₀ S.t₁ S.f₀ S.f₁ block }

def blake2b_set_lastblock (S : State) : State :=
  { S with f₁ := if S.last_node then 0xFFFFFFFFFFFFFFFF else S.f₁, f₀ := 0xFFFFFFFFFFFFFFFF }

def blake2b_increment_counter (S : State) (inc : ℕ) : State :=
  let t₀ := S.t₀ + inc.toUInt64
  { S with t₀ := t₀, t₁ := S.t₁ + if t₀ < inc.toUInt64 then 1 else 0 }

/-! ## Streaming -/

/-- The parameter block of a hash without a tree, a salt or a personalisation. -/
def params (digest_length key_length : ℕ) : Bytes :=
  [digest_length.toUInt8, key_length.toUInt8, 1, 1] ++ List.replicate 60 0

def blake2b_init_param (digest_length key_length : ℕ) : State where
  h := Vector.ofFn fun i : Fin 8 =>
    blake2b_IV.get i ^^^ load64 ((params digest_length key_length).drop (i * 8))
  t₀ := 0
  t₁ := 0
  f₀ := 0
  f₁ := 0
  buf := []
  outlen := digest_length
  last_node := false

/-- `none` is the result -1. -/
def blake2b_init (outlen : ℕ) : Option State :=
  if outlen = 0 ∨ outlen > BLAKE2B_OUTBYTES then none else some (blake2b_init_param outlen 0)

def blake2b_blocks (S : State) (pin : Bytes) : State × Bytes :=
  if BLAKE2B_BLOCKBYTES < pin.length then
    blake2b_blocks
      (blake2b_compress (blake2b_increment_counter S BLAKE2B_BLOCKBYTES)
        (pin.take BLAKE2B_BLOCKBYTES))
      (pin.drop BLAKE2B_BLOCKBYTES)
  else (S, pin)
termination_by pin.length
decreasing_by rw [List.length_drop]; simp only [BLAKE2B_BLOCKBYTES] at *; omega

def blake2b_update (S : State) (pin : Bytes) : Option State :=
  if pin.length = 0 then some S
  else if S.f₀ ≠ 0 then none
  else if S.buf.length + pin.length > BLAKE2B_BLOCKBYTES then
    let fill := BLAKE2B_BLOCKBYTES - S.buf.length
    let S := blake2b_compress (blake2b_increment_counter S BLAKE2B_BLOCKBYTES)
      (S.buf ++ pin.take fill)
    let (S, pin) := blake2b_blocks { S with buf := [] } (pin.drop fill)
    some { S with buf := S.buf ++ pin }
  else some { S with buf := S.buf ++ pin }

/-- The digest, and the state that is left: it takes no more input. -/
def blake2b_final (S : State) (outlen : ℕ) : Option (Bytes × State) :=
  if outlen < S.outlen then none
  else if S.f₀ ≠ 0 then none
  else
    let padding := List.replicate (BLAKE2B_BLOCKBYTES - S.buf.length) 0
    let S := blake2b_compress (blake2b_set_lastblock (blake2b_increment_counter S S.buf.length))
      (S.buf ++ padding)
    some (((S.h.toList.flatMap store64).take S.outlen),
      { S with h := Vector.replicate 8 0, buf := List.replicate S.buf.length 0 })

def blake2b_init_key (outlen : ℕ) (key : Bytes) : Option State :=
  if outlen = 0 ∨ outlen > BLAKE2B_OUTBYTES then none
  else if key.length = 0 ∨ key.length > BLAKE2B_KEYBYTES then none
  else
    blake2b_update (blake2b_init_param outlen key.length)
      (key ++ List.replicate (BLAKE2B_BLOCKBYTES - key.length) 0)

def blake2b_start (outlen : ℕ) (key : Bytes) : Option State :=
  if key.length > 0 then blake2b_init_key outlen key else blake2b_init outlen

def blake2b (outlen : ℕ) (pin key : Bytes) : Option Bytes := do
  if outlen = 0 ∨ outlen > BLAKE2B_OUTBYTES then none
  if key.length > BLAKE2B_KEYBYTES then none
  let S ← blake2b_start outlen key
  let S ← blake2b_update S pin
  let (out, _) ← blake2b_final S outlen
  return out

def blake2b_chain (out_buffer : Bytes) (toproduce : ℕ) : Option Bytes := do
  if toproduce > BLAKE2B_OUTBYTES then
    let out_buffer ← blake2b BLAKE2B_OUTBYTES out_buffer []
    let behind ← blake2b_chain out_buffer (toproduce - BLAKE2B_OUTBYTES / 2)
    return out_buffer.take (BLAKE2B_OUTBYTES / 2) ++ behind
  else blake2b toproduce out_buffer []
termination_by toproduce
decreasing_by simp only [BLAKE2B_OUTBYTES] at *; omega

def blake2b_first (outlen : ℕ) (outlen_bytes pin : Bytes) : Option Bytes := do
  let S ← blake2b_init outlen
  let S ← blake2b_update S outlen_bytes
  let S ← blake2b_update S pin
  let (out, _) ← blake2b_final S outlen
  return out

def blake2b_long (outlen : ℕ) (pin : Bytes) : Option Bytes := do
  if outlen > 2 ^ 32 - 1 then none
  let outlen_bytes := store32 outlen
  if outlen ≤ BLAKE2B_OUTBYTES then blake2b_first outlen outlen_bytes pin
  else
    let out_buffer ← blake2b_first BLAKE2B_OUTBYTES outlen_bytes pin
    let behind ← blake2b_chain out_buffer (outlen - BLAKE2B_OUTBYTES / 2)
    return out_buffer.take (BLAKE2B_OUTBYTES / 2) ++ behind

/-! ## The message that a state has taken -/

section Stream

open BufferedBlocks

/-- What the code does with a full block. -/
def absorb (S : State) (block : Bytes) : State :=
  blake2b_compress (blake2b_increment_counter S BLAKE2B_BLOCKBYTES) block

def held (p : State × Bytes) : State := { p.1 with buf := p.2 }

structure Open (S : State) : Prop where
  running : S.f₀ = 0
  room : S.buf.length ≤ BLAKE2B_BLOCKBYTES

abbrev take_in (p : State × Bytes) (pin : Bytes) : State × Bytes :=
  feed BLAKE2B_BLOCKBYTES absorb p pin

variable {S : State} {p : State × Bytes} {pin : Bytes}

theorem take_in_buf (p : State × Bytes) (pin buf : Bytes) :
    take_in ({ p.1 with buf := buf }, p.2) pin =
      ({ (take_in p pin).1 with buf := buf }, (take_in p pin).2) := by
  induction pin generalizing p with
  | nil => rfl
  | cons x pin ih =>
    have hstep : push BLAKE2B_BLOCKBYTES absorb ({ p.1 with buf := buf }, p.2) x =
        ({ (push BLAKE2B_BLOCKBYTES absorb p x).1 with buf := buf },
          (push BLAKE2B_BLOCKBYTES absorb p x).2) := by
      unfold push
      split <;> rfl
    rw [take_in, feed, List.foldl_cons, hstep]
    exact ih (push BLAKE2B_BLOCKBYTES absorb p x)

theorem take_in_keeps (p : State × Bytes) (pin : Bytes) :
    (take_in p pin).1.f₀ = p.1.f₀ ∧ (take_in p pin).1.outlen = p.1.outlen ∧
      (take_in p pin).1.last_node = p.1.last_node ∧ (take_in p pin).1.f₁ = p.1.f₁ ∧
      (p.2.length ≤ BLAKE2B_BLOCKBYTES → (take_in p pin).2.length ≤ BLAKE2B_BLOCKBYTES) := by
  induction pin generalizing p with
  | nil => exact ⟨rfl, rfl, rfl, rfl, id⟩
  | cons x pin ih =>
    obtain ⟨hrun, hout, hnode, hlast, hroom⟩ := ih (push BLAKE2B_BLOCKBYTES absorb p x)
    have hpush : (push BLAKE2B_BLOCKBYTES absorb p x).1.f₀ = p.1.f₀ ∧
        (push BLAKE2B_BLOCKBYTES absorb p x).1.outlen = p.1.outlen ∧
        (push BLAKE2B_BLOCKBYTES absorb p x).1.last_node = p.1.last_node ∧
        (push BLAKE2B_BLOCKBYTES absorb p x).1.f₁ = p.1.f₁ := by
      unfold push
      split <;> exact ⟨rfl, rfl, rfl, rfl⟩
    have hlen : p.2.length ≤ BLAKE2B_BLOCKBYTES →
        (push BLAKE2B_BLOCKBYTES absorb p x).2.length ≤ BLAKE2B_BLOCKBYTES := by
      intro h
      unfold push
      split
      · exact Nat.succ_le_of_lt (by decide)
      · rw [List.length_append, List.length_singleton]
        omega
    exact ⟨hrun.trans hpush.1, hout.trans hpush.2.1, hnode.trans hpush.2.2.1,
      hlast.trans hpush.2.2.2, fun h => hroom (hlen h)⟩

theorem blake2b_blocks_eq (S : State) (pin : Bytes) :
    blake2b_blocks S pin = take_in (S, []) pin := by
  fun_induction blake2b_blocks S pin with
  | case1 S pin h ih =>
    have hover : BLAKE2B_BLOCKBYTES < ([] : Bytes).length + pin.length := by
      rwa [List.length_nil, Nat.zero_add]
    have hfirst := @feed_over _ _ _ absorb S [] pin (by decide) (Nat.zero_le BLAKE2B_BLOCKBYTES)
      hover
    rw [List.nil_append, List.length_nil, Nat.sub_zero] at hfirst
    exact ih.trans hfirst.symm
  | case2 S pin h =>
    have hshort : ([] : Bytes).length + pin.length ≤ BLAKE2B_BLOCKBYTES := by
      rw [List.length_nil, Nat.zero_add]
      exact Nat.not_lt.mp h
    exact (feed_short hshort).symm

theorem blake2b_update_eq (h : Open S) (pin : Bytes) :
    blake2b_update S pin = some (held (take_in (S, S.buf) pin)) := by
  unfold blake2b_update
  by_cases hnil : pin.length = 0
  · rw [if_pos hnil, List.length_eq_zero_iff.mp hnil]
    rfl
  rw [if_neg hnil, if_neg (not_not.mpr h.running)]
  by_cases hover : S.buf.length + pin.length > BLAKE2B_BLOCKBYTES
  · rw [if_pos hover, take_in, feed_over (by decide) h.room hover]
    simp only [blake2b_blocks_eq]
    have hbuf := take_in_buf (absorb S (S.buf ++ pin.take (BLAKE2B_BLOCKBYTES - S.buf.length)), [])
      (pin.drop (BLAKE2B_BLOCKBYTES - S.buf.length)) []
    unfold absorb at hbuf ⊢
    rw [hbuf]
    rfl
  · rw [if_neg hover, take_in, feed_short (Nat.not_lt.mp hover)]
    rfl

theorem held_open (h : Open S) (pin : Bytes) : Open (held (take_in (S, S.buf) pin)) := by
  obtain ⟨hrun, -, -, -, hroom⟩ := take_in_keeps (S, S.buf) pin
  exact ⟨hrun.trans h.running, hroom h.room⟩

theorem blake2b_update_pieces (h : Open S) (pieces : List Bytes) :
    pieces.foldlM blake2b_update S = some (held (take_in (S, S.buf) pieces.flatten)) := by
  induction pieces generalizing S with
  | nil => rfl
  | cons pin pieces ih =>
    rw [List.foldlM_cons, blake2b_update_eq h pin, Option.bind_eq_bind, Option.bind_some,
      ih (held_open h pin), List.flatten_cons]
    have hwhole : take_in (S, S.buf) (pin ++ pieces.flatten) =
        take_in (take_in (S, S.buf) pin) pieces.flatten := feed_append ..
    have hbuf := take_in_buf (take_in (S, S.buf) pin) pieces.flatten (take_in (S, S.buf) pin).2
    have hheld := congrArg (fun q => some (held q)) hbuf
    rw [hwhole]
    exact hheld

end Stream

/-! ## The digest of a message -/

section Digest

open BufferedBlocks

/-- The chaining value behind some full blocks; every block is compressed under the number of
bytes that end with it. -/
def chained (h : Vector UInt64 8) (t : ℕ) : List Bytes → Vector UInt64 8
  | [] => h
  | block :: blocks =>
    let t := t + BLAKE2B_BLOCKBYTES
    chained (compress h t.toUInt64 (t / 2 ^ 64).toUInt64 0 0 block) t blocks

/-- The last block is padded with zeros and marked. -/
def digest (outlen keylen : ℕ) (blocks : List Bytes) (rest : Bytes) : Bytes :=
  let h := chained (blake2b_init_param outlen keylen).h 0 blocks
  let t := BLAKE2B_BLOCKBYTES * blocks.length + rest.length
  let h := compress h t.toUInt64 (t / 2 ^ 64).toUInt64 0xFFFFFFFFFFFFFFFF 0
    (rest ++ List.replicate (BLAKE2B_BLOCKBYTES - rest.length) 0)
  (h.toList.flatMap store64).take outlen

structure Counts (S : State) (t : ℕ) : Prop where
  low : S.t₀ = t.toUInt64
  high : S.t₁ = (t / 2 ^ 64).toUInt64

variable {S : State} {t : ℕ}

theorem counter_low (t inc : ℕ) : t.toUInt64 + inc.toUInt64 = (t + inc).toUInt64 :=
  (UInt64.ofNat_add t inc).symm

theorem counter_high {t inc : ℕ} (hinc : inc < 2 ^ 64) :
    (t / 2 ^ 64).toUInt64 + (if (t + inc).toUInt64 < inc.toUInt64 then 1 else 0) =
      ((t + inc) / 2 ^ 64).toUInt64 := by
  have hcarry : (t + inc).toUInt64 < inc.toUInt64 ↔ (t + inc) / 2 ^ 64 = t / 2 ^ 64 + 1 := by
    rw [UInt64.lt_iff_toNat_lt]
    simp only [Nat.toUInt64, UInt64.toNat_ofNat']
    omega
  by_cases h : (t + inc).toUInt64 < inc.toUInt64
  · rw [if_pos h, hcarry.mp h]
    exact (UInt64.ofNat_add (t / 2 ^ 64) 1).symm
  · have hsame : (t + inc) / 2 ^ 64 = t / 2 ^ 64 := by
      have hne := mt hcarry.mpr h
      omega
    rw [if_neg h, hsame, UInt64.add_zero]

theorem Counts.increment (h : Counts S t) {inc : ℕ} (hinc : inc < 2 ^ 64) :
    Counts (blake2b_increment_counter S inc) (t + inc) := by
  obtain ⟨hlow, hhigh⟩ := h
  refine ⟨?_, ?_⟩
  · simp only [blake2b_increment_counter, hlow, counter_low]
  · simp only [blake2b_increment_counter, hlow, hhigh, counter_low]
    exact counter_high hinc

theorem absorb_counts (h : Counts S t) (hrun : S.f₀ = 0) (hnode : S.f₁ = 0) (block : Bytes) :
    (absorb S block).h = compress S.h (t + BLAKE2B_BLOCKBYTES).toUInt64
        ((t + BLAKE2B_BLOCKBYTES) / 2 ^ 64).toUInt64 0 0 block ∧
      Counts (absorb S block) (t + BLAKE2B_BLOCKBYTES) := by
  have hinc : BLAKE2B_BLOCKBYTES < 2 ^ 64 := by decide
  have hcounts := h.increment hinc
  refine ⟨?_, hcounts.low, hcounts.high⟩
  rw [absorb, blake2b_compress, ← hcounts.low, ← hcounts.high]
  simp only [blake2b_increment_counter, hrun, hnode]

theorem foldl_absorb (h : Counts S t) (hrun : S.f₀ = 0) (hnode : S.f₁ = 0) (blocks : List Bytes) :
    (blocks.foldl absorb S).h = chained S.h t blocks ∧
      Counts (blocks.foldl absorb S) (t + BLAKE2B_BLOCKBYTES * blocks.length) := by
  induction blocks generalizing S t with
  | nil => exact ⟨rfl, h⟩
  | cons block blocks ih =>
    obtain ⟨hh, hcounts⟩ := absorb_counts h hrun hnode block
    obtain ⟨hchain, hend⟩ := ih hcounts hrun hnode
    rw [List.foldl_cons, List.length_cons, Nat.mul_succ, Nat.add_comm (_ * _), ← Nat.add_assoc]
    refine ⟨?_, hend⟩
    rw [hchain, hh, chained]

theorem init_open (outlen keylen : ℕ) : Open (blake2b_init_param outlen keylen) :=
  ⟨rfl, Nat.zero_le _⟩

theorem blake2b_final_eq {outlen : ℕ} (h : Open S) (hlast : S.last_node = false) (hf₁ : S.f₁ = 0)
    (hout : S.outlen ≤ outlen) (hcounts : Counts S t) :
    (blake2b_final S outlen).map Prod.fst =
      some (((compress S.h (t + S.buf.length).toUInt64 ((t + S.buf.length) / 2 ^ 64).toUInt64
        0xFFFFFFFFFFFFFFFF 0 (S.buf ++ List.replicate (BLAKE2B_BLOCKBYTES - S.buf.length)
          0)).toList.flatMap store64).take S.outlen) := by
  have hlen : S.buf.length < 2 ^ 64 := lt_of_le_of_lt h.room (by decide)
  obtain ⟨hlow, hhigh⟩ := hcounts.increment hlen
  have hmark : blake2b_set_lastblock (blake2b_increment_counter S S.buf.length) =
      { S with
        t₀ := (t + S.buf.length).toUInt64
        t₁ := ((t + S.buf.length) / 2 ^ 64).toUInt64
        f₀ := 0xFFFFFFFFFFFFFFFF
        f₁ := 0 } := by
    rw [← hlow, ← hhigh, ← hf₁]
    simp [blake2b_set_lastblock, blake2b_increment_counter, hlast]
  rw [blake2b_final, if_neg (Nat.not_lt.mpr hout), if_neg (not_not.mpr h.running), hmark]
  rfl

theorem final_digest {outlen keylen : ℕ} {message : Bytes} {blocks : List Bytes} {rest : Bytes}
    (hcut : Cut BLAKE2B_BLOCKBYTES message blocks rest) :
    (blake2b_final (held (take_in (blake2b_init_param outlen keylen, []) message)) outlen).map
      Prod.fst = some (digest outlen keylen blocks rest) := by
  have hzero : Counts (blake2b_init_param outlen keylen) 0 := ⟨rfl, rfl⟩
  obtain ⟨hchain, hcounts⟩ := foldl_absorb hzero rfl rfl blocks
  have hfed : take_in (blake2b_init_param outlen keylen, []) message =
      (blocks.foldl absorb (blake2b_init_param outlen keylen), rest) := feed_cut (by decide) hcut
  obtain ⟨hrun, hout, hlast, hf₁, -⟩ := take_in_keeps (blake2b_init_param outlen keylen, []) message
  rw [hfed] at hrun hout hlast hf₁ ⊢
  have hcounts' : Counts (held (blocks.foldl absorb (blake2b_init_param outlen keylen), rest))
      (BLAKE2B_BLOCKBYTES * blocks.length) := by
    rw [Nat.zero_add] at hcounts
    exact ⟨hcounts.low, hcounts.high⟩
  have hopen : Open (held (blocks.foldl absorb (blake2b_init_param outlen keylen), rest)) :=
    ⟨hrun, hcut.fits⟩
  refine (blake2b_final_eq hopen hlast hf₁ hout.le hcounts').trans ?_
  have hsame : (blocks.foldl absorb (blake2b_init_param outlen keylen)).outlen = outlen := hout
  rw [digest, ← hchain]
  simp only [held, hsame]

def keyed (key pin : Bytes) : Bytes :=
  (if key = [] then [] else key ++ List.replicate (BLAKE2B_BLOCKBYTES - key.length) 0) ++ pin

theorem blake2b_final_out (S : State) (outlen : ℕ) : (do
    let (out, _) ← blake2b_final S outlen
    return out) = (blake2b_final S outlen).map Prod.fst := by
  cases blake2b_final S outlen <;> rfl

theorem blake2b_init_key_eq {outlen : ℕ} {key : Bytes}
    (hout : 0 < outlen ∧ outlen ≤ BLAKE2B_OUTBYTES) (hne : key ≠ [])
    (hkey : key.length ≤ BLAKE2B_KEYBYTES) :
    blake2b_init_key outlen key = blake2b_update (blake2b_init_param outlen key.length)
      (key ++ List.replicate (BLAKE2B_BLOCKBYTES - key.length) 0) := by
  have hlen := List.length_pos_iff.mpr hne
  rw [blake2b_init_key, if_neg (by omega), if_neg (by omega)]

/-- A hash that was started takes the key block and the pieces of the message. -/
theorem blake2b_start_pieces {outlen : ℕ} {key : Bytes}
    (hout : 0 < outlen ∧ outlen ≤ BLAKE2B_OUTBYTES) (hkey : key.length ≤ BLAKE2B_KEYBYTES)
    (pieces : List Bytes) :
    (do
      let S ← blake2b_start outlen key
      pieces.foldlM blake2b_update S) = some (held
        (take_in (blake2b_init_param outlen key.length, []) (keyed key pieces.flatten))) := by
  unfold blake2b_start
  by_cases hnil : key = []
  · have hsize : ¬(outlen = 0 ∨ outlen > BLAKE2B_OUTBYTES) := by omega
    rw [hnil, if_neg (by simp), blake2b_init, if_neg hsize]
    exact blake2b_update_pieces (init_open outlen 0) pieces
  · have hpieces := blake2b_update_pieces (init_open outlen key.length)
      ((key ++ List.replicate (BLAKE2B_BLOCKBYTES - key.length) 0) :: pieces)
    rw [List.foldlM_cons, List.flatten_cons] at hpieces
    rw [if_pos (List.length_pos_iff.mpr hnil), blake2b_init_key_eq hout hnil hkey, keyed,
      if_neg hnil]
    exact hpieces

theorem blake2b_pieces {outlen : ℕ} {key : Bytes} (hout : 0 < outlen ∧ outlen ≤ BLAKE2B_OUTBYTES)
    (hkey : key.length ≤ BLAKE2B_KEYBYTES) (pieces : List Bytes) {blocks : List Bytes}
    {rest : Bytes} (hcut : Cut BLAKE2B_BLOCKBYTES (keyed key pieces.flatten) blocks rest) : (do
      let S ← blake2b_start outlen key
      let S ← pieces.foldlM blake2b_update S
      let (out, _) ← blake2b_final S outlen
      return out) = some (digest outlen key.length blocks rest) := by
  simp only [blake2b_final_out]
  rw [← bind_assoc, blake2b_start_pieces hout hkey pieces]
  exact final_digest hcut

theorem blake2b_eq {outlen : ℕ} {key pin : Bytes} (hout : 0 < outlen ∧ outlen ≤ BLAKE2B_OUTBYTES)
    (hkey : key.length ≤ BLAKE2B_KEYBYTES) {blocks : List Bytes} {rest : Bytes}
    (hcut : Cut BLAKE2B_BLOCKBYTES (keyed key pin) blocks rest) :
    blake2b outlen pin key = some (digest outlen key.length blocks rest) := by
  have hsize : ¬(outlen = 0 ∨ outlen > BLAKE2B_OUTBYTES) := by omega
  have hone := @blake2b_pieces outlen key hout hkey [pin] blocks rest (by simpa using hcut)
  rw [blake2b, if_neg hsize, if_neg (Nat.not_lt.mpr hkey)]
  simpa only [List.foldlM_cons, List.foldlM_nil, bind_pure] using hone

theorem blake2b_unkeyed {outlen : ℕ} {pin : Bytes} (hout : 0 < outlen ∧ outlen ≤ BLAKE2B_OUTBYTES)
    {blocks : List Bytes} {rest : Bytes} (hcut : Cut BLAKE2B_BLOCKBYTES pin blocks rest) :
    blake2b outlen pin [] = some (digest outlen 0 blocks rest) :=
  @blake2b_eq outlen [] pin hout (Nat.zero_le BLAKE2B_KEYBYTES) blocks rest hcut

/-- However a message is cut into pieces, its digest is the one of the whole, under a key or without
one, and that is the last value of the chain over its blocks, the key block in front. -/
theorem blake2b_stream {outlen : ℕ} {key : Bytes} (hout : 0 < outlen ∧ outlen ≤ BLAKE2B_OUTBYTES)
    (hkey : key.length ≤ BLAKE2B_KEYBYTES) (pieces : List Bytes) {blocks : List Bytes}
    {rest : Bytes} (hcut : Cut BLAKE2B_BLOCKBYTES (keyed key pieces.flatten) blocks rest) :
    (do
      let S ← blake2b_start outlen key
      let S ← pieces.foldlM blake2b_update S
      let (out, _) ← blake2b_final S outlen
      return out) = blake2b outlen pieces.flatten key ∧
    blake2b outlen pieces.flatten key = some (digest outlen key.length blocks rest) := by
  have hwhole := blake2b_eq hout hkey hcut
  exact ⟨(blake2b_pieces hout hkey pieces hcut).trans hwhole.symm, hwhole⟩

theorem blake2b_stream_abc :
    (do
      let S ← blake2b_init_key 64 (bytes "k")
      let S ← [bytes "a", bytes "bc"].foldlM blake2b_update S
      let (out, _) ← blake2b_final S 64
      return out) = blake2b 64 (bytes "abc") (bytes "k") := by
  have hcut : Cut BLAKE2B_BLOCKBYTES (keyed (bytes "k") [bytes "a", bytes "bc"].flatten)
      [bytes "k" ++ List.replicate 127 0] (bytes "abc") :=
    ⟨by decide +kernel, by decide +kernel, by decide, fun hnil => absurd hnil (by decide)⟩
  have hstart : blake2b_start 64 (bytes "k") = blake2b_init_key 64 (bytes "k") :=
    if_pos (by decide)
  have hflat : [bytes "a", bytes "bc"].flatten = bytes "abc" := by decide
  rw [← hstart, ← hflat]
  exact (blake2b_stream (by decide) (by decide) [bytes "a", bytes "bc"] hcut).1

end Digest

/-! ## Digests of any length -/

section Long

open BufferedBlocks

def hash (outlen : ℕ) (pin : Bytes) : Bytes := (blake2b outlen pin []).getD []

theorem digest_length {outlen keylen : ℕ} (hout : outlen ≤ BLAKE2B_OUTBYTES) (blocks : List Bytes)
    (rest : Bytes) : (digest outlen keylen blocks rest).length = outlen := by
  have hwords : ∀ ws : List UInt64, (ws.flatMap store64).length = 8 * ws.length := by
    intro ws
    induction ws with
    | nil => rfl
    | cons w ws ih =>
      rw [List.flatMap_cons, List.length_append, ih, List.length_cons, store64, List.length_map,
        List.length_range]
      omega
  rw [digest, List.length_take, hwords, Vector.length_toList]
  exact Nat.min_eq_left hout

theorem hash_some {outlen : ℕ} (hout : 0 < outlen ∧ outlen ≤ BLAKE2B_OUTBYTES) (pin : Bytes) :
    blake2b outlen pin [] = some (hash outlen pin) ∧ (hash outlen pin).length = outlen := by
  have hblock : 0 < BLAKE2B_BLOCKBYTES := by decide
  obtain ⟨blocks, rest, hcut⟩ := cut_exists hblock pin
  have hdigest := blake2b_unkeyed hout hcut
  rw [hash, hdigest]
  exact ⟨rfl, digest_length hout.2 blocks rest⟩

theorem full_outlen : 0 < BLAKE2B_OUTBYTES ∧ BLAKE2B_OUTBYTES ≤ BLAKE2B_OUTBYTES := by decide

def link (pin : Bytes) : ℕ → Bytes
  | 0 => pin
  | i + 1 => hash BLAKE2B_OUTBYTES (link pin i)

theorem link_succ (pin : Bytes) (i : ℕ) :
    link (hash BLAKE2B_OUTBYTES pin) i = link pin (i + 1) := by
  induction i with
  | zero => rfl
  | succ i ih => rw [link, ih, ← link]

/-- Half of every digest but the last, and all of that. -/
def halves (pin : Bytes) (n last : ℕ) : Bytes :=
  (List.range n).flatMap (fun i => (link pin (i + 1)).take (BLAKE2B_OUTBYTES / 2)) ++
    hash last (link pin n)

theorem halves_succ (pin : Bytes) (n last : ℕ) :
    halves pin (n + 1) last = (hash BLAKE2B_OUTBYTES pin).take (BLAKE2B_OUTBYTES / 2) ++
      halves (hash BLAKE2B_OUTBYTES pin) n last := by
  rw [halves, halves, List.range_succ_eq_map, List.flatMap_cons, List.flatMap_map, link_succ,
    List.append_assoc]
  simp only [link_succ]
  rfl

theorem halves_length (pin : Bytes) (n : ℕ) {last : ℕ}
    (hlast : 0 < last ∧ last ≤ BLAKE2B_OUTBYTES) :
    (halves pin n last).length = BLAKE2B_OUTBYTES / 2 * n + last := by
  induction n generalizing pin with
  | zero => simpa [halves] using (hash_some hlast (link pin 0)).2
  | succ n ih =>
    have hfull := (hash_some full_outlen pin).2
    rw [halves_succ, List.length_append, List.length_take, hfull, ih]
    simp only [BLAKE2B_OUTBYTES]
    omega

theorem blake2b_chain_eq {toproduce : ℕ} (h : 0 < toproduce) (out_buffer : Bytes) :
    blake2b_chain out_buffer toproduce =
      some (halves out_buffer ((toproduce - 33) / 32)
        (toproduce - 32 * ((toproduce - 33) / 32))) := by
  induction toproduce using Nat.strongRecOn generalizing out_buffer with
  | ind toproduce ih =>
    rw [blake2b_chain]
    by_cases hmore : toproduce > BLAKE2B_OUTBYTES
    · have hmany : 64 < toproduce := hmore
      have hfull := (hash_some full_outlen out_buffer).1
      have hn : (toproduce - 33) / 32 = (toproduce - 32 - 33) / 32 + 1 := by omega
      have hlast : toproduce - 32 * ((toproduce - 32 - 33) / 32 + 1) =
          toproduce - 32 - 32 * ((toproduce - 32 - 33) / 32) := by omega
      rw [if_pos hmore, hfull, Option.bind_eq_bind, Option.bind_some,
        ih (toproduce - BLAKE2B_OUTBYTES / 2) (by simp only [BLAKE2B_OUTBYTES]; omega)
          (by simp only [BLAKE2B_OUTBYTES]; omega), hn, halves_succ, hlast]
      rfl
    · have hless := Nat.not_lt.mp hmore
      have hn : (toproduce - 33) / 32 = 0 := by
        simp only [BLAKE2B_OUTBYTES] at hless
        omega
      rw [if_neg hmore, (hash_some ⟨h, hless⟩ out_buffer).1, hn]
      rfl

def expand (outlen : ℕ) (pin : Bytes) : Bytes :=
  let message := store32 outlen ++ pin
  if outlen ≤ BLAKE2B_OUTBYTES then hash outlen message
  else halves message ((outlen - 33) / 32) (outlen - 32 * ((outlen - 33) / 32))

theorem hash_pieces {outlen : ℕ} (hout : 0 < outlen ∧ outlen ≤ BLAKE2B_OUTBYTES)
    (pieces : List Bytes) :
    (do
      let S ← blake2b_init outlen
      let S ← pieces.foldlM blake2b_update S
      let (out, _) ← blake2b_final S outlen
      return out) = some (hash outlen pieces.flatten) := by
  have hblock : 0 < BLAKE2B_BLOCKBYTES := by decide
  obtain ⟨blocks, rest, hcut⟩ := cut_exists hblock pieces.flatten
  have hpieces := @blake2b_pieces outlen [] hout (Nat.zero_le BLAKE2B_KEYBYTES) pieces blocks rest
    hcut
  rw [← (hash_some hout pieces.flatten).1, blake2b_unkeyed hout hcut]
  exact hpieces

theorem blake2b_first_eq {outlen : ℕ} (hout : 0 < outlen ∧ outlen ≤ BLAKE2B_OUTBYTES)
    (outlen_bytes pin : Bytes) :
    blake2b_first outlen outlen_bytes pin = some (hash outlen (outlen_bytes ++ pin)) := by
  have hpieces := hash_pieces hout [outlen_bytes, pin]
  simp only [List.foldlM_cons, List.foldlM_nil, bind_pure, List.flatten_cons, List.flatten_nil,
    List.append_nil, bind_assoc] at hpieces
  exact hpieces

theorem blake2b_long_eq {outlen : ℕ} (h : 0 < outlen) (hmax : outlen < 2 ^ 32) (pin : Bytes) :
    blake2b_long outlen pin = some (expand outlen pin) := by
  have hsmall : ¬outlen > 2 ^ 32 - 1 := by omega
  rw [blake2b_long, if_neg hsmall, expand]
  by_cases hshort : outlen ≤ BLAKE2B_OUTBYTES
  · simp only [if_pos hshort]
    exact blake2b_first_eq ⟨h, hshort⟩ (store32 outlen) pin
  · have hlong : 64 < outlen := Nat.not_le.mp hshort
    have hhalf : outlen - BLAKE2B_OUTBYTES / 2 = outlen - 32 := rfl
    have hn : (outlen - 33) / 32 = (outlen - 32 - 33) / 32 + 1 := by omega
    have hlast : outlen - 32 * ((outlen - 32 - 33) / 32 + 1) =
        outlen - 32 - 32 * ((outlen - 32 - 33) / 32) := by omega
    simp only [if_neg hshort, blake2b_first_eq full_outlen, Option.bind_eq_bind, Option.bind_some,
      hhalf, blake2b_chain_eq (show 0 < outlen - 32 by omega), hn, halves_succ, hlast]
    rfl

theorem expand_length {outlen : ℕ} (h : 0 < outlen) (pin : Bytes) :
    (expand outlen pin).length = outlen := by
  unfold expand
  by_cases hshort : outlen ≤ BLAKE2B_OUTBYTES
  · simp only [if_pos hshort]
    exact (hash_some ⟨h, hshort⟩ _).2
  · have hlong : 64 < outlen := Nat.not_le.mp hshort
    have hlast : 0 < outlen - 32 * ((outlen - 33) / 32) ∧
        outlen - 32 * ((outlen - 33) / 32) ≤ BLAKE2B_OUTBYTES := by
      simp only [BLAKE2B_OUTBYTES]
      omega
    simp only [if_neg hshort]
    rw [halves_length _ _ hlast]
    simp only [BLAKE2B_OUTBYTES]
    omega

/-- The hash of variable length fails for the lengths 0 and from 2^32 on, and else produces
exactly that many bytes: halves of a chain of digests and one more digest in full. -/
theorem blake2b_long_expands (outlen : ℕ) (pin : Bytes) :
    (blake2b_long outlen pin = none ↔ outlen = 0 ∨ 2 ^ 32 ≤ outlen) ∧
    ∀ out, blake2b_long outlen pin = some out → out = expand outlen pin ∧ out.length = outlen := by
  rcases Nat.eq_zero_or_pos outlen with rfl | h
  · have hzero : blake2b_long 0 pin = none := rfl
    rw [hzero]
    exact ⟨by simp, fun out hout => absurd hout (by simp)⟩
  · by_cases hmax : outlen < 2 ^ 32
    · rw [blake2b_long_eq h hmax]
      refine ⟨by simp; omega, fun out hout => ?_⟩
      obtain rfl := Option.some.inj hout
      exact ⟨rfl, expand_length h pin⟩
    · have hnone : blake2b_long outlen pin = none := by
        rw [blake2b_long, if_pos (by omega)]
        rfl
      rw [hnone]
      exact ⟨by simp; omega, fun out hout => absurd hout (by simp)⟩

end Long

end Blake2b
