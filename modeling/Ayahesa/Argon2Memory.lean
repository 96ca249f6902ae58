import Ayahesa.InterleavedThreads
import Mathlib.Algebra.Group.Int.Defs
import Mathlib.Algebra.Group.Nat.Defs

/-! # The memory that a password hash fills

`ref.c` and `index_alpha` of `core.c`. The memory is made of blocks of 128 words in lanes, and a
lane of four segments. A thread fills one segment of its lane, block by block, from the block in
front of it and from one that it computes. -/
namespace Argon2Memory

open InterleavedThreads Thread

/-! ## Blocks -/

def ARGON2_SYNC_POINTS : ℕ := 4
def ARGON2_ADDRESSES_IN_BLOCK : ℕ := 128

def as_uint32 (n : ℤ) : ℕ := (n % 2 ^ 32).toNat
def as_uint64 (n : ℤ) : ℕ := (n % 2 ^ 64).toNat

abbrev Block := Vector UInt64 128

abbrev Cell := ℕ × Fin 128

abbrev Access := Thread Cell UInt64

def init_block_value : Block := Vector.replicate 128 0

def copy_block (src : ℕ) : Access Block :=
  (List.finRange 128).foldlM (fun dst i => do return dst.set i (← load (src, i)))
    init_block_value

def xor_block (dst : Block) (src : ℕ) : Access Block :=
  (List.finRange 128).foldlM
    (fun dst i => do return dst.set i (dst.get i ^^^ (← load (src, i)))) dst

def copy_block_to (dst : ℕ) (src : Block) : Access Unit :=
  (List.finRange 128).forM fun i => store (dst, i) (src.get i)

def xor_block_to (dst : ℕ) (src : Block) : Access Unit :=
  (List.finRange 128).forM fun i => do
    let x ← load (dst, i)
    store (dst, i) (x ^^^ src.get i)

def xor_blocks (a b : Block) : Block := Vector.zipWith (· ^^^ ·) a b

def fBlaMka (x y : UInt64) : UInt64 := x + y + 2 * ((x &&& 0xFFFFFFFF) * (y &&& 0xFFFFFFFF))

def rotr64 (w : UInt64) (c : UInt64) : UInt64 := (w >>> c) ||| (w <<< (64 - c))

def G (v : Block) (a b c d : Fin 128) : Block :=
  let v := v.set a (fBlaMka (v.get a) (v.get b))
  let v := v.set d (rotr64 (v.get d ^^^ v.get a) 32)
  let v := v.set c (fBlaMka (v.get c) (v.get d))
  let v := v.set b (rotr64 (v.get b ^^^ v.get c) 24)
  let v := v.set a (fBlaMka (v.get a) (v.get b))
  let v := v.set d (rotr64 (v.get d ^^^ v.get a) 16)
  let v := v.set c (fBlaMka (v.get c) (v.get d))
  v.set b (rotr64 (v.get b ^^^ v.get c) 63)

def BLAKE2_ROUND_NOMSG (v : Block) (w : ℕ → Fin 128) : Block :=
  let v := G v (w 0) (w 4) (w 8) (w 12)
  let v := G v (w 1) (w 5) (w 9) (w 13)
  let v := G v (w 2) (w 6) (w 10) (w 14)
  let v := G v (w 3) (w 7) (w 11) (w 15)
  let v := G v (w 0) (w 5) (w 10) (w 15)
  let v := G v (w 1) (w 6) (w 11) (w 12)
  let v := G v (w 2) (w 7) (w 8) (w 13)
  G v (w 3) (w 4) (w 9) (w 14)

/-- The rounds on the columns and on the rows of a block. -/
def rounds (blockR : Block) : Block :=
  let columns := (List.finRange 8).foldl
    (fun v i => BLAKE2_ROUND_NOMSG v fun k => Fin.ofNat 128 (16 * i + k)) blockR
  (List.finRange 8).foldl
    (fun v i => BLAKE2_ROUND_NOMSG v fun k => Fin.ofNat 128 (2 * i + 16 * (k / 2) + k % 2)) columns

def keep_block (blockR : Block) (next : ℕ) (with_xor : Bool) : Access Block :=
  if with_xor then xor_block blockR next else pure blockR

def fill_block (prev ref next : ℕ) (with_xor : Bool) : Access Unit := do
  let blockR ← copy_block ref
  let blockR ← xor_block blockR prev
  let block_tmp ← keep_block blockR next with_xor
  copy_block_to next block_tmp
  xor_block_to next (rounds blockR)

def fill_local (prev ref : Block) : Block :=
  let blockR := xor_blocks ref prev
  xor_blocks blockR (rounds blockR)

def next_addresses (input_block : Block) : Block × Block :=
  let input_block := input_block.set 6 (input_block.get 6 + 1)
  let address_block := fill_local init_block_value input_block
  (fill_local init_block_value address_block, input_block)

/-! ## Positions -/

inductive Argon2Type where
  | Argon2_d
  | Argon2_i
  | Argon2_id
  deriving DecidableEq, Repr

def Argon2Type.code : Argon2Type → ℕ
  | .Argon2_d => 0
  | .Argon2_i => 1
  | .Argon2_id => 2

def ARGON2_VERSION_10 : ℕ := 0x10

structure Instance where
  version : ℕ
  passes : ℕ
  memory_blocks : ℕ
  segment_length : ℕ
  lane_length : ℕ
  lanes : ℕ
  threads : ℕ
  type : Argon2Type

structure Position where
  pass : ℕ
  lane : ℕ
  slice : ℕ
  index : ℕ

def reference_area_size (inst : Instance) (position : Position) (same_lane : Bool) : ℕ :=
  if position.pass = 0 then
    if position.slice = 0 then as_uint32 (position.index - 1)
    else if same_lane then
      as_uint32 (position.slice * inst.segment_length + position.index - 1)
    else
      as_uint32 (position.slice * inst.segment_length + if position.index = 0 then -1 else 0)
  else if same_lane then
    as_uint32 (inst.lane_length - inst.segment_length + position.index - 1)
  else
    as_uint32 (inst.lane_length - inst.segment_length + if position.index = 0 then -1 else 0)

def index_alpha (inst : Instance) (position : Position) (pseudo_rand : ℕ) (same_lane : Bool) : ℕ :=
  let area := reference_area_size inst position same_lane
  let relative_position : ℕ := as_uint64 (pseudo_rand * pseudo_rand) / 2 ^ 32
  let relative_position :=
    as_uint64 (as_uint32 (area - 1) - as_uint64 (area * relative_position) / 2 ^ 32)
  let start_position :=
    if position.pass ≠ 0 then
      if position.slice = ARGON2_SYNC_POINTS - 1 then 0
      else as_uint32 ((position.slice + 1) * inst.segment_length)
    else 0
  as_uint64 (start_position + relative_position) % inst.lane_length

/-! ## A segment -/

def data_independent_addressing (inst : Instance) (position : Position) : Bool :=
  inst.type = .Argon2_i ∨
    inst.type = .Argon2_id ∧ position.pass = 0 ∧ position.slice < ARGON2_SYNC_POINTS / 2

/-- The local variables of the loop over the blocks of a segment. -/
structure Cursor where
  i : ℕ
  curr_offset : ℕ
  prev_offset : ℕ
  address_block : Block
  input_block : Block

def rotated_offset (inst : Instance) (c : Cursor) : ℕ :=
  if c.curr_offset % inst.lane_length = 1 then as_uint32 (c.curr_offset - 1) else c.prev_offset

def addresses (inst : Instance) (position : Position) (c : Cursor) : Block × Block :=
  if data_independent_addressing inst position ∧ c.i % ARGON2_ADDRESSES_IN_BLOCK = 0 then
    next_addresses c.input_block
  else (c.address_block, c.input_block)

def pseudo_random (inst : Instance) (position : Position) (address_block : Block)
    (i prev_offset : ℕ) : Access UInt64 :=
  if data_independent_addressing inst position then pure (address_block.get (Fin.ofNat 128 i))
  else load (prev_offset, 0)

def reference_lane (inst : Instance) (position : Position) (pseudo_rand : UInt64) : ℕ :=
  if position.pass = 0 ∧ position.slice = 0 then position.lane
  else pseudo_rand.toNat / 2 ^ 32 % inst.lanes

def reference_block (inst : Instance) (position : Position) (pseudo_rand : UInt64) : ℕ :=
  let ref_lane := reference_lane inst position pseudo_rand
  inst.lane_length * ref_lane +
    index_alpha inst position (pseudo_rand.toNat % 2 ^ 32) (ref_lane = position.lane)

def fill_step (inst : Instance) (position : Position) (c : Cursor) : Access Cursor := do
  let prev_offset := rotated_offset inst c
  let (address_block, input_block) := addresses inst position c
  let pseudo_rand ← pseudo_random inst position address_block c.i prev_offset
  let ref_block := reference_block inst { position with index := c.i } pseudo_rand
  let with_xor := ¬(ARGON2_VERSION_10 = inst.version) ∧ position.pass ≠ 0
  fill_block prev_offset ref_block c.curr_offset with_xor
  return ⟨c.i + 1, as_uint32 (c.curr_offset + 1), as_uint32 (prev_offset + 1), address_block,
    input_block⟩

def fill_steps (inst : Instance) (position : Position) : ℕ → Cursor → Access Unit
  | 0, _ => pure ()
  | n + 1, c => do fill_steps inst position n (← fill_step inst position c)

def first_input (inst : Instance) (position : Position) : Block :=
  ((((((init_block_value.set 0 position.pass.toUInt64).set 1 position.lane.toUInt64).set 2
    position.slice.toUInt64).set 3 inst.memory_blocks.toUInt64).set 4 inst.passes.toUInt64).set 5
    inst.type.code.toUInt64)

/-- The first two blocks of a lane are there already. -/
def starting_index (position : Position) : ℕ :=
  if position.pass = 0 ∧ position.slice = 0 then 2 else 0

def first_addresses (inst : Instance) (position : Position) : Block × Block :=
  if (position.pass = 0 ∧ position.slice = 0) ∧ data_independent_addressing inst position then
    next_addresses (first_input inst position)
  else (init_block_value, first_input inst position)

def first_cursor (inst : Instance) (position : Position) : Cursor :=
  let (address_block, input_block) := first_addresses inst position
  let curr_offset := as_uint32 (position.lane * inst.lane_length +
    position.slice * inst.segment_length + starting_index position)
  let prev_offset :=
    if curr_offset % inst.lane_length = 0 then as_uint32 (curr_offset + inst.lane_length - 1)
    else as_uint32 (curr_offset - 1)
  ⟨starting_index position, curr_offset, prev_offset, address_block, input_block⟩

def fill_segment (inst : Instance) (position : Position) : Access Unit :=
  let c := first_cursor inst position
  fill_steps inst position (inst.segment_length - c.i) c

/-! ## Where the referred block lies -/

structure Laid (inst : Instance) : Prop where
  lanes : 0 < inst.lanes
  segment : 2 ≤ inst.segment_length
  lane : inst.lane_length = 4 * inst.segment_length
  blocks : inst.memory_blocks = inst.lanes * inst.lane_length
  fits : inst.memory_blocks < 2 ^ 32

variable {inst : Instance} {position : Position} {same_lane : Bool}

/-- A position that is filled: the first two blocks of a lane are there from the start. -/
structure Fills (inst : Instance) (position : Position) : Prop where
  lane : position.lane < inst.lanes
  slice : position.slice < 4
  index : position.index < inst.segment_length
  first : position.pass = 0 → position.slice = 0 → 2 ≤ position.index

theorem as_uint32_of_lt {n : ℕ} (h : n < 2 ^ 32) : as_uint32 n = n := by
  rw [as_uint32]
  omega

theorem as_uint32_eq {i : ℤ} {n : ℕ} (hi : i = n) (h : n < 2 ^ 32) : as_uint32 i = n :=
  hi ▸ as_uint32_of_lt h

theorem as_uint64_of_lt {n : ℕ} (h : n < 2 ^ 64) : as_uint64 n = n := by
  rw [as_uint64]
  omega

theorem as_uint64_eq {i : ℤ} {n : ℕ} (hi : i = n) (h : n < 2 ^ 64) : as_uint64 i = n :=
  hi ▸ as_uint64_of_lt h

theorem Laid.lane_fits (h : Laid inst) : inst.lane_length < 2 ^ 32 := by
  have hle : inst.lane_length ≤ inst.memory_blocks := by
    rw [h.blocks]
    exact Nat.le_mul_of_pos_left inst.lane_length h.lanes
  exact hle.trans_lt h.fits

/-- The blocks that may be referred to: all that are there, without those of the slice that other
lanes are filling, and without the one in front. -/
def area (inst : Instance) (position : Position) (same_lane : Bool) : ℕ :=
  if position.pass = 0 then
    if same_lane then position.slice * inst.segment_length + position.index - 1
    else position.slice * inst.segment_length - if position.index = 0 then 1 else 0
  else if same_lane then 3 * inst.segment_length + position.index - 1
  else 3 * inst.segment_length - if position.index = 0 then 1 else 0

theorem slice_offset {slice segment_length : ℕ} (h : slice < 4) :
    slice * segment_length ≤ 3 * segment_length ∧
      (0 < slice → segment_length ≤ slice * segment_length) :=
  ⟨Nat.mul_le_mul_right segment_length (by omega), Nat.le_mul_of_pos_left segment_length⟩

theorem reference_area_size_eq (h : Laid inst) (hpos : Fills inst position)
    (hsame : position.pass = 0 → position.slice = 0 → same_lane) :
    reference_area_size inst position same_lane = area inst position same_lane ∧
      0 < area inst position same_lane ∧ area inst position same_lane < inst.lane_length := by
  obtain ⟨pass, lane, slice, index⟩ := position
  have hfits := h.lane_fits
  obtain ⟨-, hseg, hlane, -, -⟩ := h
  obtain ⟨-, hslice, hindex, hfirst⟩ := hpos
  simp only at hslice hindex hfirst hsame
  obtain ⟨hle, hge⟩ := @slice_offset slice inst.segment_length hslice
  have hcast : (slice : ℤ) * inst.segment_length = (slice * inst.segment_length : ℕ) := by
    push_cast
    rfl
  rw [hlane] at hfits ⊢
  simp only [reference_area_size, area, hlane, hcast]
  generalize hoff : slice * inst.segment_length = off at hle hge
  by_cases hpass : pass = 0
  · by_cases hzero : slice = 0
    · have hsame' := hsame hpass hzero
      have htwo := hfirst hpass hzero
      have hoff0 : off = 0 := by rw [← hoff, hzero, Nat.zero_mul]
      simp only [hpass, hzero, hsame', if_true]
      exact ⟨as_uint32_eq (by omega) (by omega), by omega, by omega⟩
    · have hpos := hge (Nat.pos_of_ne_zero hzero)
      cases same_lane with
      | true =>
        simp only [hpass, hzero, if_true, if_false]
        exact ⟨as_uint32_eq (by omega) (by omega), by omega, by omega⟩
      | false =>
        simp only [hpass, hzero, if_true, if_false, Bool.false_eq_true]
        by_cases hindex0 : index = 0
        · simp only [hindex0, if_true]
          exact ⟨as_uint32_eq (by omega) (by omega), by omega, by omega⟩
        · simp only [hindex0, if_false]
          exact ⟨as_uint32_eq (by omega) (by omega), by omega, by omega⟩
  · cases same_lane with
    | true =>
      simp only [hpass, if_true, if_false]
      exact ⟨as_uint32_eq (by omega) (by omega), by omega, by omega⟩
    | false =>
      simp only [hpass, if_false, Bool.false_eq_true]
      by_cases hindex0 : index = 0
      · simp only [hindex0, if_true]
        exact ⟨as_uint32_eq (by omega) (by omega), by omega, by omega⟩
      · simp only [hindex0, if_false]
        exact ⟨as_uint32_eq (by omega) (by omega), by omega, by omega⟩

theorem index_alpha_eq (h : Laid inst) (hpos : Fills inst position)
    (hsame : position.pass = 0 → position.slice = 0 → same_lane) {pseudo_rand : ℕ}
    (hrand : pseudo_rand < 2 ^ 32) :
    ∃ relative < area inst position same_lane,
      index_alpha inst position pseudo_rand same_lane =
        ((if position.pass ≠ 0 then
            if position.slice = 3 then 0 else (position.slice + 1) * inst.segment_length
          else 0) + relative) % inst.lane_length := by
  obtain ⟨heq, hpos', hlt⟩ := reference_area_size_eq h hpos hsame
  have hfits := h.lane_fits
  generalize ha : area inst position same_lane = a at heq hpos' hlt
  have hsquare : pseudo_rand * pseudo_rand / 2 ^ 32 < 2 ^ 32 :=
    Nat.div_lt_of_lt_mul (Nat.mul_lt_mul'' hrand hrand)
  have hscaled : a * (pseudo_rand * pseudo_rand / 2 ^ 32) / 2 ^ 32 < a :=
    Nat.div_lt_of_lt_mul (by rw [Nat.mul_comm]; exact Nat.mul_lt_mul_of_pos_right hsquare hpos')
  have hprod : a * (pseudo_rand * pseudo_rand / 2 ^ 32) < 2 ^ 32 * 2 ^ 32 :=
    Nat.mul_lt_mul'' (hlt.trans hfits) hsquare
  have hrand2 : pseudo_rand * pseudo_rand < 2 ^ 32 * 2 ^ 32 := Nat.mul_lt_mul'' hrand hrand
  generalize hrel : pseudo_rand * pseudo_rand / 2 ^ 32 = rel at hsquare hscaled hprod
  have hfirst : as_uint64 (pseudo_rand * pseudo_rand) = pseudo_rand * pseudo_rand :=
    as_uint64_eq (by push_cast; rfl) hrand2
  have hsecond : as_uint64 (a * rel) = a * rel := as_uint64_eq (by push_cast; rfl) hprod
  have hless : as_uint32 (a - 1) = a - 1 := as_uint32_eq (by omega) (by omega)
  have hthird : as_uint64 ((a - 1 : ℕ) - (a * rel : ℕ) / 2 ^ 32) = a - 1 - a * rel / 2 ^ 32 :=
    as_uint64_eq (by omega) (by omega)
  have hseg : (position.slice + 1) * inst.segment_length < 2 ^ 32 := by
    have hle : (position.slice + 1) * inst.segment_length ≤ 4 * inst.segment_length :=
      Nat.mul_le_mul_right _ hpos.slice
    rw [h.lane] at hfits
    exact hle.trans_lt hfits
  have hstart : as_uint32 ((position.slice + 1) * inst.segment_length) =
      (position.slice + 1) * inst.segment_length := as_uint32_eq (by push_cast; rfl) hseg
  refine ⟨a - 1 - a * rel / 2 ^ 32, by omega, ?_⟩
  simp only [index_alpha, heq, hfirst, hrel, hsecond, hless, hthird, hstart, ARGON2_SYNC_POINTS]
  congr 1
  refine as_uint64_eq (by push_cast; rfl) ?_
  split_ifs <;> omega

/-- What the block that is referred to is: in its lane, never one that is not there yet, and in the
slice that is being filled only one of the own lane, in front of the previous block. -/
theorem index_alpha_spec (h : Laid inst) (hpos : Fills inst position)
    (hsame : position.pass = 0 → position.slice = 0 → same_lane) {pseudo_rand : ℕ}
    (hrand : pseudo_rand < 2 ^ 32) :
    index_alpha inst position pseudo_rand same_lane < inst.lane_length ∧
    (position.pass = 0 → index_alpha inst position pseudo_rand same_lane <
      position.slice * inst.segment_length + position.index) ∧
    (position.slice * inst.segment_length ≤ index_alpha inst position pseudo_rand same_lane →
      index_alpha inst position pseudo_rand same_lane <
        (position.slice + 1) * inst.segment_length →
      same_lane ∧ index_alpha inst position pseudo_rand same_lane + 1 <
        position.slice * inst.segment_length + position.index) := by
  obtain ⟨relative, hrel, heq⟩ := index_alpha_eq h hpos hsame hrand
  obtain ⟨-, -, hlt⟩ := reference_area_size_eq h hpos hsame
  rw [heq]
  clear heq hsame hrand
  obtain ⟨pass, lane, slice, index⟩ := position
  obtain ⟨-, hslice, hindex, -⟩ := hpos
  obtain ⟨-, hseg, hlane, -, -⟩ := h
  simp only at hslice hindex
  obtain ⟨hle, hge⟩ := @slice_offset slice inst.segment_length hslice
  have hnext : (slice + 1) * inst.segment_length =
      slice * inst.segment_length + inst.segment_length := Nat.succ_mul slice inst.segment_length
  simp only [area, hlane, hnext] at hrel hlt ⊢
  clear hnext
  generalize inst.segment_length = seg at *
  by_cases hpass : pass = 0
  · simp only [hpass, if_true, ne_eq, not_true_eq_false, if_false, Nat.zero_add] at hrel hlt ⊢
    rw [Nat.mod_eq_of_lt (hrel.trans hlt)]
    cases same_lane with
    | true =>
      simp only [if_true] at hrel
      exact ⟨hrel.trans hlt, fun _ => by omega, fun _ _ => ⟨rfl, by omega⟩⟩
    | false =>
      simp only [Bool.false_eq_true, if_false] at hrel
      exact ⟨by omega, fun _ => by omega, fun hin _ => absurd hin (by omega)⟩
  · simp only [hpass, ne_eq, not_false_eq_true, if_true, if_false] at hrel hlt ⊢
    by_cases hlast : slice = 3
    · subst hlast
      rw [if_pos rfl, Nat.zero_add, Nat.mod_eq_of_lt (hrel.trans hlt)]
      cases same_lane with
      | true =>
        simp only [if_true] at hrel
        exact ⟨hrel.trans hlt, fun h => h.elim, fun _ _ => ⟨rfl, by omega⟩⟩
      | false =>
        simp only [Bool.false_eq_true, if_false] at hrel
        exact ⟨by omega, fun h => h.elim, fun hin _ => absurd hin (by omega)⟩
    · rw [if_neg hlast]
      have hoff : slice * seg + seg ≤ 3 * seg := by
        rw [← Nat.succ_mul]
        exact Nat.mul_le_mul_right seg (by omega)
      rcases Nat.lt_or_ge (slice * seg + seg + relative) (4 * seg) with hin | hout
      · rw [Nat.mod_eq_of_lt hin]
        exact ⟨hin, fun h => h.elim, fun _ hbelow => absurd hbelow (by omega)⟩
      · rw [Nat.mod_eq_sub_mod hout, Nat.mod_eq_of_lt (by omega)]
        cases same_lane with
        | true =>
          simp only [if_true] at hrel
          exact ⟨by omega, fun h => h.elim, fun _ _ => ⟨rfl, by omega⟩⟩
        | false =>
          simp only [Bool.false_eq_true, if_false] at hrel
          exact ⟨by omega, fun h => h.elim, fun hin _ => absurd hin (by omega)⟩

/-! ## What a segment reads and writes -/

section Blocks

variable {W D : Set Cell}

theorem copy_block_safe {src : ℕ} (h : ∀ w, (src, w) ∈ D) :
    (copy_block src).Safe W D fun E _ => D ⊆ E := by
  refine safe_foldlM (fun E dst w _ hE => ?_) init_block_value (Set.Subset.refl D)
  rw [safe_bind, safe_load]
  exact ⟨hE (h w), fun _ => safe_pure.mpr hE⟩

theorem xor_block_safe {src : ℕ} (h : ∀ w, (src, w) ∈ D) (dst : Block) :
    (xor_block dst src).Safe W D fun E _ => D ⊆ E := by
  refine safe_foldlM (fun E dst w _ hE => ?_) dst (Set.Subset.refl D)
  rw [safe_bind, safe_load]
  exact ⟨hE (h w), fun _ => safe_pure.mpr hE⟩

theorem copy_block_to_safe {dst : ℕ} (h : ∀ w, (dst, w) ∈ W) (src : Block) :
    (copy_block_to dst src).Safe W D fun E _ => ∀ w, (dst, w) ∈ E := by
  have hwords : (copy_block_to dst src).Safe W D
      fun E _ => ∀ w ∈ List.finRange 128, (dst, w) ∈ E := by
    refine safe_forM (fun w E F hEF hw => hEF hw) fun E _ w _ => ?_
    exact safe_store.mpr ⟨h w, Set.mem_insert _ _⟩
  exact hwords.weaken fun E _ _ hE w => hE w (List.mem_finRange w)

theorem xor_block_to_safe {dst : ℕ} (h : ∀ w, (dst, w) ∈ W) (hD : ∀ w, (dst, w) ∈ D) (src : Block) :
    (xor_block_to dst src).Safe W D fun _ _ => True := by
  have hwords : (xor_block_to dst src).Safe W D fun _ _ => ∀ w ∈ List.finRange 128, True := by
    refine safe_forM (fun _ _ _ _ h => h) fun E hE w _ => ?_
    rw [safe_bind, safe_load]
    exact ⟨hE (hD w), fun x => safe_store.mpr ⟨h w, trivial⟩⟩
  exact hwords.weaken fun _ _ _ _ => trivial

theorem keep_block_safe {next : ℕ} {with_xor : Bool} (h : with_xor → ∀ w, (next, w) ∈ D)
    (blockR : Block) : (keep_block blockR next with_xor).Safe W D fun E _ => D ⊆ E := by
  cases with_xor with
  | false => exact Set.Subset.refl D
  | true => exact xor_block_safe (h rfl) blockR

theorem fill_block_safe {prev ref next : ℕ} {with_xor : Bool} (hprev : ∀ w, (prev, w) ∈ D)
    (href : ∀ w, (ref, w) ∈ D) (hnext : with_xor → ∀ w, (next, w) ∈ D)
    (hW : ∀ w, (next, w) ∈ W) :
    (fill_block prev ref next with_xor).Safe W D fun E _ => ∀ w, (next, w) ∈ E := by
  unfold fill_block
  rw [safe_bind]
  refine (copy_block_safe href).weaken fun E₁ blockR _ h₁ => ?_
  rw [safe_bind]
  refine (xor_block_safe (fun w => h₁ (hprev w)) blockR).weaken fun E₂ blockR _ h₂ => ?_
  rw [safe_bind]
  refine (keep_block_safe (fun hx w => h₂ (h₁ (hnext hx w))) blockR).weaken
    fun E₃ block_tmp _ _ => ?_
  rw [safe_bind]
  refine (copy_block_to_safe hW block_tmp).weaken fun E₄ _ _ h₄ => ?_
  exact (xor_block_to_safe hW h₄ (rounds blockR)).weaken fun E₅ _ hE _ w => hE (h₄ w)

end Blocks

section Segment

def segment (inst : Instance) (slice l : ℕ) : Set Cell :=
  { c | c.1 / inst.lane_length = l ∧ slice * inst.segment_length ≤ c.1 % inst.lane_length ∧
    c.1 % inst.lane_length < (slice + 1) * inst.segment_length }

def ready (inst : Instance) (pass slice : ℕ) : Set Cell :=
  { c | c.1 < inst.memory_blocks ∧ (pass = 0 →
    c.1 % inst.lane_length < 2 ∨ c.1 % inst.lane_length < slice * inst.segment_length) }

/-- Those of them that no other lane is filling. -/
def known (inst : Instance) (pass slice l : ℕ) : Set Cell :=
  { c ∈ ready inst pass slice | slice * inst.segment_length ≤ c.1 % inst.lane_length →
    c.1 % inst.lane_length < (slice + 1) * inst.segment_length → c.1 / inst.lane_length = l }

variable {inst : Instance} {position : Position} {c : Cursor} {l col slice pass : ℕ} {w : Fin 128}

theorem block_place (h : col < inst.lane_length) :
    (l * inst.lane_length + col) / inst.lane_length = l ∧
      (l * inst.lane_length + col) % inst.lane_length = col := by
  have hpos : 0 < inst.lane_length := by omega
  rw [Nat.mul_comm, Nat.mul_add_div hpos, Nat.div_eq_of_lt h, Nat.mul_add_mod, Nat.mod_eq_of_lt h]
  exact ⟨rfl, rfl⟩

theorem block_lt (h : Laid inst) (hl : l < inst.lanes) (hcol : col < inst.lane_length) :
    l * inst.lane_length + col < inst.memory_blocks := by
  have hle : (l + 1) * inst.lane_length ≤ inst.lanes * inst.lane_length :=
    Nat.mul_le_mul_right _ hl
  rw [h.blocks]
  rw [Nat.succ_mul] at hle
  omega

theorem mem_segment {l' : ℕ} (h : col < inst.lane_length) :
    (l' * inst.lane_length + col, w) ∈ segment inst slice l ↔
      l' = l ∧ slice * inst.segment_length ≤ col ∧ col < (slice + 1) * inst.segment_length := by
  obtain ⟨hdiv, hmod⟩ := @block_place inst l' col h
  simp only [segment, Set.mem_ofPred_eq, hdiv, hmod]

theorem mem_known {l' : ℕ} (hinst : Laid inst) (hl : l' < inst.lanes) (h : col < inst.lane_length) :
    (l' * inst.lane_length + col, w) ∈ known inst pass slice l ↔
      (pass = 0 → col < 2 ∨ col < slice * inst.segment_length) ∧
        (slice * inst.segment_length ≤ col → col < (slice + 1) * inst.segment_length → l' = l) := by
  obtain ⟨hdiv, hmod⟩ := @block_place inst l' col h
  simp only [known, ready, Set.mem_ofPred_eq, hdiv, hmod, block_lt hinst hl h, true_and]

structure At (inst : Instance) (position : Position) (c : Cursor) : Prop where
  curr : c.curr_offset =
    position.lane * inst.lane_length + (position.slice * inst.segment_length + c.i)
  first : position.slice * inst.segment_length + c.i = 0 →
    c.prev_offset = position.lane * inst.lane_length + (inst.lane_length - 1)
  later : 2 ≤ position.slice * inst.segment_length + c.i →
    c.prev_offset =
      position.lane * inst.lane_length + (position.slice * inst.segment_length + c.i - 1)

/-- What is settled when a lane has filled its segment up to an index. -/
structure Reached (inst : Instance) (position : Position) (D : Set Cell) : Prop where
  known : known inst position.pass position.slice position.lane ⊆ D
  own : ∀ col w, position.slice * inst.segment_length ≤ col →
    col < position.slice * inst.segment_length + position.index →
    (position.lane * inst.lane_length + col, w) ∈ D

variable {D : Set Cell}

theorem column_lt (hinst : Laid inst) (hpos : Fills inst position) :
    position.slice * inst.segment_length + position.index < inst.lane_length := by
  have hle := (@slice_offset position.slice inst.segment_length hpos.slice).1
  have hindex := hpos.index
  rw [hinst.lane]
  omega

theorem reference_settled (hinst : Laid inst) (hpos : Fills inst position)
    (h : Reached inst position D) (pseudo_rand : UInt64) (w : Fin 128) :
    (reference_block inst position pseudo_rand, w) ∈ D := by
  have hlane : reference_lane inst position pseudo_rand < inst.lanes := by
    unfold reference_lane
    split
    · exact hpos.lane
    · exact Nat.mod_lt _ hinst.lanes
  have hfirst : position.pass = 0 → position.slice = 0 →
      reference_lane inst position pseudo_rand = position.lane := fun hp hs => if_pos ⟨hp, hs⟩
  have hrand : pseudo_rand.toNat % 2 ^ 32 < 2 ^ 32 := Nat.mod_lt _ (by decide)
  unfold reference_block
  generalize reference_lane inst position pseudo_rand = ref_lane at hlane hfirst
  generalize pseudo_rand.toNat % 2 ^ 32 = rand at hrand
  have hsame : position.pass = 0 → position.slice = 0 → decide (ref_lane = position.lane) :=
    fun hp hs => decide_eq_true (hfirst hp hs)
  obtain ⟨hlt, hthere, hown⟩ := index_alpha_spec hinst hpos hsame hrand
  simp only [Nat.mul_comm inst.lane_length ref_lane]
  generalize index_alpha inst position rand (decide (ref_lane = position.lane)) = r at *
  by_cases hin : position.slice * inst.segment_length ≤ r ∧
      r < (position.slice + 1) * inst.segment_length
  · obtain ⟨hmine, hbefore⟩ := hown hin.1 hin.2
    rw [of_decide_eq_true hmine]
    exact h.own r w hin.1 (by omega)
  · refine h.known ((mem_known hinst hlane hlt).mpr ⟨fun hpass => .inr ?_, fun hge hbelow => ?_⟩)
    · have hbelow := hthere hpass
      have hindex := hpos.index
      by_contra hge
      refine hin ⟨Nat.not_lt.mp hge, ?_⟩
      rw [Nat.succ_mul]
      omega
    · exact absurd ⟨hge, hbelow⟩ hin

def previous (inst : Instance) (position : Position) : ℕ :=
  position.lane * inst.lane_length +
    if position.slice * inst.segment_length + position.index = 0 then inst.lane_length - 1
    else position.slice * inst.segment_length + position.index - 1

theorem previous_settled (hinst : Laid inst) (hpos : Fills inst position)
    (h : Reached inst position D) (w : Fin 128) : (previous inst position, w) ∈ D := by
  have hcol := column_lt hinst hpos
  have hseg := hinst.segment
  have hlane := hinst.lane
  unfold previous
  by_cases hzero : position.slice * inst.segment_length + position.index = 0
  · rw [if_pos hzero]
    have hslice : position.slice = 0 := by
      have hmul : position.slice * inst.segment_length = 0 := by omega
      exact (Nat.mul_eq_zero.mp hmul).resolve_right (by omega)
    refine h.known ((mem_known hinst hpos.lane (by omega)).mpr ⟨fun hpass => ?_, fun _ _ => rfl⟩)
    have htwo := hpos.first hpass hslice
    omega
  · rw [if_neg hzero]
    by_cases hindex : position.index = 0
    · refine h.known ((mem_known hinst hpos.lane (by omega)).mpr ⟨fun _ => .inr ?_, fun _ _ => rfl⟩)
      omega
    · exact h.own _ w (by omega) (by omega)

theorem previous_offset (hinst : Laid inst) (hpos : Fills inst { position with index := c.i })
    (hat : At inst position c) :
    rotated_offset inst c = previous inst { position with index := c.i } := by
  have hcol := column_lt hinst hpos
  obtain ⟨-, hmod⟩ := @block_place inst position.lane _ hcol
  have hfits := (block_lt hinst hpos.lane hcol).trans hinst.fits
  unfold previous rotated_offset
  simp only at hcol hmod hfits ⊢
  rw [hat.curr, hmod]
  by_cases hone : position.slice * inst.segment_length + c.i = 1
  · rw [if_pos hone, if_neg (by omega)]
    exact as_uint32_eq (by omega) (by omega)
  · rw [if_neg hone]
    by_cases hzero : position.slice * inst.segment_length + c.i = 0
    · rw [if_pos hzero, hat.first hzero]
    · rw [if_neg hzero, hat.later (by omega)]

theorem pseudo_random_safe {W : Set Cell} {prev_offset : ℕ} (h : (prev_offset, 0) ∈ D)
    (address_block : Block) (i : ℕ) :
    (pseudo_random inst position address_block i prev_offset).Safe W D fun E _ => D ⊆ E := by
  unfold pseudo_random
  split
  · exact Set.Subset.refl D
  · exact ⟨h, fun _ => Set.Subset.refl D⟩

theorem At.next (hinst : Laid inst) (hpos : Fills inst { position with index := c.i })
    (hat : At inst position c) (address_block input_block : Block) :
    At inst position ⟨c.i + 1, as_uint32 (c.curr_offset + 1),
      as_uint32 (previous inst { position with index := c.i } + 1), address_block,
      input_block⟩ := by
  have hcol := column_lt hinst hpos
  have hthere := block_lt hinst hpos.lane hcol
  have hfits := hinst.fits
  simp only at hcol hthere
  refine ⟨?_, fun hzero => ?_, fun htwo => ?_⟩
  · simp only [hat.curr]
    exact as_uint32_eq (by omega) (by omega)
  · simp only at hzero
    omega
  · simp only at htwo ⊢
    unfold previous
    simp only
    rw [if_neg (by omega)]
    exact as_uint32_eq (by omega) (by omega)

theorem fill_step_safe (hinst : Laid inst) (hpos : Fills inst { position with index := c.i })
    (hat : At inst position c) (h : Reached inst { position with index := c.i } D) :
    (fill_step inst position c).Safe (segment inst position.slice position.lane) D fun E c' =>
      c'.i = c.i + 1 ∧ At inst position c' ∧
        ∀ w, (position.lane * inst.lane_length + (position.slice * inst.segment_length + c.i), w) ∈
          E := by
  have hcol := column_lt hinst hpos
  have hindex := hpos.index
  have hprevious := previous_settled hinst hpos h
  simp only at hcol hindex
  unfold fill_step
  rw [previous_offset hinst hpos hat, safe_bind]
  refine (pseudo_random_safe (hprevious 0) _ c.i).weaken fun E₁ pseudo_rand _ h₁ => ?_
  have hblock : (fill_block (previous inst { position with index := c.i })
      (reference_block inst { position with index := c.i } pseudo_rand) c.curr_offset
      (¬(ARGON2_VERSION_10 = inst.version) ∧ position.pass ≠ 0)).Safe
        (segment inst position.slice position.lane) E₁
        fun E _ => ∀ w, (c.curr_offset, w) ∈ E := by
    rw [hat.curr]
    refine fill_block_safe (fun w => h₁ (hprevious w))
      (fun w => h₁ (reference_settled hinst hpos h pseudo_rand w)) (fun hxor w => h₁ ?_)
      (fun w => (mem_segment hcol).mpr ⟨rfl, by omega, by rw [Nat.succ_mul]; omega⟩)
    have hpass := (of_decide_eq_true hxor).2
    exact h.known ((mem_known hinst hpos.lane hcol).mpr ⟨fun hp => absurd hp hpass, fun _ _ => rfl⟩)
  rw [safe_bind]
  refine hblock.weaken fun E₂ _ _ h₂ => ?_
  rw [hat.curr] at h₂
  exact ⟨rfl, hat.next hinst hpos _ _, h₂⟩

theorem Reached.step {E : Set Cell} (h : Reached inst { position with index := c.i } D) (hE : D ⊆ E)
    (hnew : ∀ w, (position.lane * inst.lane_length +
      (position.slice * inst.segment_length + c.i), w) ∈ E) :
    Reached inst { position with index := c.i + 1 } E := by
  refine ⟨h.known.trans hE, fun col w hge hlt => ?_⟩
  simp only at hge hlt ⊢
  by_cases hlast : col = position.slice * inst.segment_length + c.i
  · rw [hlast]
    exact hnew w
  · exact hE (h.own col w hge (by simp only; omega))

theorem reached_full
    (h : Reached inst { position with index := inst.segment_length } D) :
    known inst position.pass position.slice position.lane ∪
      segment inst position.slice position.lane ⊆ D := by
  refine Set.union_subset h.known ?_
  rintro ⟨b, w⟩ ⟨hlane, hge, hlt⟩
  have hplace : b = position.lane * inst.lane_length + b % inst.lane_length := by
    have hdiv := Nat.div_add_mod b inst.lane_length
    rw [Nat.mul_comm] at hdiv
    simp only at hlane
    rw [hlane] at hdiv
    exact hdiv.symm
  rw [hplace]
  refine h.own _ w hge ?_
  rw [Nat.succ_mul] at hlt
  exact hlt

theorem fill_steps_safe (hinst : Laid inst) (hlane : position.lane < inst.lanes)
    (hslice : position.slice < 4) {n : ℕ} (hn : c.i + n = inst.segment_length)
    (hfirst : position.pass = 0 → position.slice = 0 → 2 ≤ c.i) (hat : At inst position c)
    (h : Reached inst { position with index := c.i } D) :
    (fill_steps inst position n c).Safe (segment inst position.slice position.lane) D
      fun E _ => known inst position.pass position.slice position.lane ∪
        segment inst position.slice position.lane ⊆ E := by
  induction n generalizing c D with
  | zero =>
    rw [Nat.add_zero] at hn
    rw [hn] at h
    exact reached_full h
  | succ n ih =>
    have hpos : Fills inst { position with index := c.i } :=
      ⟨hlane, hslice, by simp only; omega, hfirst⟩
    rw [fill_steps, safe_bind]
    refine (fill_step_safe hinst hpos hat h).grow.weaken fun E c' _ hE => ?_
    obtain ⟨hgrow, hi, hat', hnew⟩ := hE
    have hreached := h.step hgrow hnew
    rw [← hi] at hreached
    exact ih (by omega) (fun hp hs => by have htwo := hfirst hp hs; omega) hat' hreached

theorem starting_column (hinst : Laid inst) (hslice : position.slice < 4) :
    position.slice * inst.segment_length + starting_index position < inst.lane_length := by
  have hseg := hinst.segment
  have hle := (@slice_offset position.slice inst.segment_length hslice).1
  rw [hinst.lane, starting_index]
  by_cases hfirst : position.pass = 0 ∧ position.slice = 0
  · rw [if_pos hfirst, hfirst.2]
    omega
  · rw [if_neg hfirst]
    omega

theorem first_cursor_at (hinst : Laid inst) (hlane : position.lane < inst.lanes)
    (hslice : position.slice < 4) : At inst position (first_cursor inst position) := by
  have hcol := starting_column hinst hslice
  have hthere := block_lt hinst hlane hcol
  have hfits := hinst.fits
  obtain ⟨-, hmod⟩ := @block_place inst position.lane _ hcol
  have hcurr : as_uint32 (position.lane * inst.lane_length +
      position.slice * inst.segment_length + starting_index position) =
      position.lane * inst.lane_length +
        (position.slice * inst.segment_length + starting_index position) :=
    as_uint32_eq (by omega) (by omega)
  have hlast : position.lane * inst.lane_length + (inst.lane_length - 1) < inst.memory_blocks :=
    block_lt hinst hlane (by omega)
  refine ⟨hcurr, fun hzero => ?_, fun htwo => ?_⟩
  · simp only [first_cursor] at hzero ⊢
    rw [hcurr, hmod, if_pos hzero, hzero]
    exact as_uint32_eq (by omega) (by omega)
  · simp only [first_cursor] at htwo ⊢
    rw [hcurr, hmod, if_neg (by omega)]
    exact as_uint32_eq (by omega) (by omega)

theorem first_reached (hinst : Laid inst) (hlane : position.lane < inst.lanes)
    (hslice : position.slice < 4) :
    Reached inst { position with index := starting_index position }
      (known inst position.pass position.slice position.lane) := by
  have hcol := starting_column hinst hslice
  refine ⟨Set.Subset.refl _, fun col w hge hlt => ?_⟩
  simp only at hge hlt ⊢
  refine (mem_known hinst hlane (by omega)).mpr ⟨fun _ => .inl ?_, fun _ _ => rfl⟩
  unfold starting_index at hlt
  by_cases hfirst : position.pass = 0 ∧ position.slice = 0
  · rw [if_pos hfirst, hfirst.2] at hlt
    omega
  · rw [if_neg hfirst] at hlt
    omega

/-- A segment is filled from cells that are settled and that no other lane is filling. -/
theorem fill_segment_safe (hinst : Laid inst) (hlane : position.lane < inst.lanes)
    (hslice : position.slice < 4) :
    (fill_segment inst position).Safe (segment inst position.slice position.lane)
      (known inst position.pass position.slice position.lane)
      fun E _ => known inst position.pass position.slice position.lane ∪
        segment inst position.slice position.lane ⊆ E := by
  have hseg := hinst.segment
  have hstart : starting_index position ≤ inst.segment_length := by
    unfold starting_index
    split <;> omega
  refine fill_steps_safe hinst hlane hslice (Nat.add_sub_of_le hstart) (fun hp hs => ?_)
    (first_cursor_at hinst hlane hslice) (first_reached hinst hlane hslice)
  simp [first_cursor, starting_index, hp, hs]

/-- No lane writes what another lane reads or writes. -/
theorem segments_apart {l' : ℕ} (hne : l ≠ l') {x : Cell}
    (hx : x ∈ segment inst slice l') : x ∉ known inst pass slice l ∧ x ∉ segment inst slice l := by
  obtain ⟨hlane, hge, hlt⟩ := hx
  refine ⟨fun hknown => hne ?_, fun hmine => hne ?_⟩
  · rw [← hlane, ← hknown.2 hge hlt]
  · rw [← hlane, ← hmine.1]

theorem ready_next (hinst : Laid inst) {x : Cell} (h : x ∈ ready inst pass (slice + 1)) :
    x ∈ ready inst pass slice ∨ ∃ l < inst.lanes, x ∈ segment inst slice l := by
  obtain ⟨hb, hready⟩ := h
  by_cases hin : x ∈ ready inst pass slice
  · exact .inl hin
  · have hlane : x.1 / inst.lane_length < inst.lanes := by
      refine Nat.div_lt_of_lt_mul ?_
      rw [Nat.mul_comm, ← hinst.blocks]
      exact hb
    have hpass : pass = 0 := by
      by_contra hne
      exact hin ⟨hb, fun hp => absurd hp hne⟩
    have hnot : ¬(x.1 % inst.lane_length < 2 ∨
        x.1 % inst.lane_length < slice * inst.segment_length) := fun h => hin ⟨hb, fun _ => h⟩
    have hcol := hready hpass
    exact .inr ⟨_, hlane, rfl, by omega, by omega⟩

theorem ready_pass (hinst : Laid inst) : ready inst (pass + 1) 0 ⊆ ready inst pass 4 := by
  rintro x ⟨hb, -⟩
  refine ⟨hb, fun _ => .inr ?_⟩
  rw [← hinst.lane]
  exact Nat.mod_lt _ (by have hseg := hinst.segment; have hlane := hinst.lane; omega)

end Segment

end Argon2Memory
