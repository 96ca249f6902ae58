import Ayahesa.DecimalText
import Ayahesa.SextetCodec
import Mathlib.Data.List.Induction
import Mathlib.Tactic.IntervalCases
import Mathlib.Tactic.Tauto

/-! # Base64 and decimal numbers in an encoded hash

The first part of `encoding.c`. A string stands without its NUL; the NUL is neither a character
of the alphabet nor a digit. -/
namespace Argon2Base64

open CMemory DecimalText SextetCodec

/-! ## Characters -/

/-- The comparisons give `0xFF` or 0 on values below 256. -/
def EQ (x y : UInt32) : UInt32 := (((0 - (x ^^^ y)) >>> 8) &&& 0xFF) ^^^ 0xFF
def GT (x y : UInt32) : UInt32 := ((y - x) >>> 8) &&& 0xFF
def GE (x y : UInt32) : UInt32 := GT y x ^^^ 0xFF
def LT (x y : UInt32) : UInt32 := GT y x
def LE (x y : UInt32) : UInt32 := GE y x

def b64_byte_to_char (x : UInt32) : UInt8 :=
  ((LT x 26 &&& (x + 65)) ||| (GE x 26 &&& LT x 52 &&& (x + (97 - 26))) |||
    (GE x 52 &&& LT x 62 &&& (x + (48 - 52))) ||| (EQ x 62 &&& 43) ||| (EQ x 63 &&& 47)).toUInt8

def b64_char_to_byte (c : UInt32) : UInt32 :=
  let x := (GE c 65 &&& LE c 90 &&& (c - 65)) ||| (GE c 97 &&& LE c 122 &&& (c - (97 - 26))) |||
    (GE c 48 &&& LE c 57 &&& (c - (48 - 52))) ||| (EQ c 43 &&& 62) ||| (EQ c 47 &&& 63)
  x ||| (EQ x 0 &&& (EQ c 65 ^^^ 0xFF))

/-- A `char` is signed, so a byte from 128 on becomes a negative `int`. -/
def int_of_char (c : UInt8) : UInt32 := c.toInt8.toInt32.toUInt32

def value (c : UInt8) : ℕ := (b64_char_to_byte (int_of_char c)).toNat

def alphabet : Bytes := bytes "ABCDEFGHIJKLMNOPQRSTUVWXYZabcdefghijklmnopqrstuvwxyz0123456789+/"

def char (v : ℕ) : UInt8 := alphabet.getD v 0

theorem byte_to_char : ∀ v < 64, b64_byte_to_char v.toUInt32 = char v := by
  decide +kernel

/-- The comparison with `/` takes a negative value for equal. -/
theorem value_cases : ∀ n < 256, value n.toUInt8 =
    if 128 ≤ n then 63 else if n.toUInt8 ∈ alphabet then alphabet.idxOf n.toUInt8 else 255 := by
  decide +kernel

theorem value_char : ∀ v < 64, value (char v) = v := by
  decide +kernel

theorem value_lt {c : UInt8} (h : value c ≠ 255) : value c < 64 := by
  have hc := value_cases c.toNat c.toNat_lt
  rw [Nat.toUInt8_eq, UInt8.ofNat_toNat] at hc
  split at hc
  · omega
  · split at hc
    · next hmem =>
      have hidx := List.idxOf_lt_length_iff.mpr hmem
      have hlen : alphabet.length = 64 := by decide
      omega
    · exact absurd hc h

/-! ## `to_base64` -/

/-- The variables of the loop, and what it has written. -/
structure Encoding where
  acc : UInt32
  acc_len : ℕ
  dst : Bytes

def emit (acc : UInt32) : ℕ → Bytes → ℕ × Bytes
  | acc_len + 6, dst =>
    emit acc acc_len (dst ++ [b64_byte_to_char ((acc >>> acc_len.toUInt32) &&& 0x3F)])
  | acc_len, dst => (acc_len, dst)

def encode_byte (s : Encoding) (b : UInt8) : Encoding :=
  let acc := (s.acc <<< 8) + b.toUInt32
  let (acc_len, dst) := emit acc (s.acc_len + 8) s.dst
  ⟨acc, acc_len, dst⟩

def b64len (len : ℕ) : ℕ :=
  len / 3 * 4 + if len % 3 = 2 then 1 + 2 else if len % 3 = 1 then 2 else 0

def flush (s : Encoding) : Bytes :=
  if 0 < s.acc_len then
    s.dst ++ [b64_byte_to_char ((s.acc <<< (6 - s.acc_len).toUInt32) &&& 0x3F)]
  else s.dst

/-- What is written, the NUL included, and the length that is returned. -/
def to_base64 (dst_len : ℕ) (src : Bytes) : Option (Bytes × ℕ) :=
  let olen := b64len src.length
  if dst_len ≤ olen then none
  else
    let s := src.foldl encode_byte ⟨0, 0, []⟩
    some (flush s ++ [0], olen)

def base64 (src : Bytes) : Bytes := (pack (src.map UInt8.toNat)).map char

theorem acc_byte (acc : UInt32) (b : UInt8) :
    ((acc <<< 8) + b.toUInt32).toNat = (acc.toNat * 256 + b.toNat) % 2 ^ 32 := by
  simp [UInt32.toNat_add, UInt32.toNat_shiftLeft, Nat.shiftLeft_eq]

theorem byte_to_char_toNat {x : UInt32} (h : x.toNat < 64) :
    b64_byte_to_char x = char x.toNat := by
  have hchar := byte_to_char x.toNat h
  rwa [Nat.toUInt32_eq, UInt32.ofNat_toNat] at hchar

theorem emitted {acc : UInt32} {k v : ℕ} (hk : k < 32) (h : acc.toNat / 2 ^ k % 64 = v) :
    b64_byte_to_char ((acc >>> k.toUInt32) &&& 0x3F) = char v := by
  have hx : ((acc >>> k.toUInt32) &&& 0x3F).toNat = v := by
    have hmod : k % 2 ^ 32 % 32 = k := by omega
    rw [← h, UInt32.toNat_and, UInt32.toNat_shiftRight, Nat.toUInt32_eq, UInt32.toNat_ofNat', hmod,
      Nat.shiftRight_eq_div_pow]
    exact Nat.and_two_pow_sub_one_eq_mod _ 6
  have hv : v < 64 := by omega
  rw [← hx] at hv ⊢
  exact byte_to_char_toNat hv

/-- A sextet made of the last bits and zeros. -/
theorem padded {acc : UInt32} {k v : ℕ} (hk : k < 32) (h : acc.toNat * 2 ^ k % 64 = v) :
    b64_byte_to_char ((acc <<< k.toUInt32) &&& 0x3F) = char v := by
  have hx : ((acc <<< k.toUInt32) &&& 0x3F).toNat = v := by
    have hmod : k % 2 ^ 32 % 32 = k := by omega
    rw [← h, UInt32.toNat_and, UInt32.toNat_shiftLeft, Nat.toUInt32_eq, UInt32.toNat_ofNat', hmod,
      Nat.shiftLeft_eq, ← Nat.mod_mod_of_dvd (acc.toNat * 2 ^ k) (by decide : 64 ∣ 2 ^ 32)]
    exact Nat.and_two_pow_sub_one_eq_mod _ 6
  have hv : v < 64 := by omega
  rw [← hx] at hv ⊢
  exact byte_to_char_toNat hv

/-- The bits of the accumulator that were not written yet are known, the others are not. -/
structure Pending (s : Encoding) (len low : ℕ) (dst : Bytes) : Prop where
  bits : s.acc_len = len
  rest : s.acc.toNat % 2 ^ len = low
  written : s.dst = dst

theorem encode_first {s : Encoding} {dst : Bytes} (h : Pending s 0 0 dst) (a : UInt8) :
    Pending (encode_byte s a) 2 (a.toNat % 4) (dst ++ [char (a.toNat / 4)]) := by
  have ha := a.toNat_lt
  have hacc := acc_byte s.acc a
  have hchar := @emitted ((s.acc <<< 8) + a.toUInt32) 2 (a.toNat / 4) (by decide) (by omega)
  constructor
  · simp [encode_byte, h.bits, emit]
  · simp only [encode_byte, hacc]
    omega
  · simp [encode_byte, h.bits, h.written, emit, ← hchar]

theorem encode_second {s : Encoding} {low : ℕ} {dst : Bytes} (h : Pending s 2 low dst)
    (b : UInt8) :
    Pending (encode_byte s b) 4 (b.toNat % 16) (dst ++ [char (low * 16 + b.toNat / 16)]) := by
  have hb := b.toNat_lt
  have hlow := h.rest
  have hacc := acc_byte s.acc b
  have hchar := @emitted ((s.acc <<< 8) + b.toUInt32) 4 (low * 16 + b.toNat / 16) (by decide)
    (by omega)
  constructor
  · simp [encode_byte, h.bits, emit]
  · simp only [encode_byte, hacc]
    omega
  · simp [encode_byte, h.bits, h.written, emit, ← hchar]

theorem encode_third {s : Encoding} {low : ℕ} {dst : Bytes} (h : Pending s 4 low dst)
    (c : UInt8) :
    Pending (encode_byte s c) 0 0
      (dst ++ [char (low * 4 + c.toNat / 64), char (c.toNat % 64)]) := by
  have hc := c.toNat_lt
  have hlow := h.rest
  have hacc := acc_byte s.acc c
  have hchar := @emitted ((s.acc <<< 8) + c.toUInt32) 6 (low * 4 + c.toNat / 64) (by decide)
    (by omega)
  have hlast := @emitted ((s.acc <<< 8) + c.toUInt32) 0 (c.toNat % 64) (by decide) (by omega)
  constructor
  · simp [encode_byte, h.bits, emit]
  · exact Nat.mod_one _
  · simp [encode_byte, h.bits, h.written, emit, ← hchar, ← hlast]

/-- The bits that are left when the bytes are over, with zeros behind them. -/
theorem flush_some {s : Encoding} {len low : ℕ} {dst : Bytes} (h : Pending s len low dst)
    (hpos : 0 < len) (hlen : len < 6) :
    flush s = dst ++ [char (low * 2 ^ (6 - len))] := by
  have hlow := h.rest
  rw [flush, h.bits, if_pos hpos, h.written]
  congr 2
  apply padded (by omega)
  rw [← hlow]
  interval_cases len <;> omega

theorem flush_none {s : Encoding} {low : ℕ} {dst : Bytes} (h : Pending s 0 low dst) :
    flush s = dst := by
  rw [flush, h.bits, if_neg (Nat.lt_irrefl 0), h.written]

theorem encode_bytes {s : Encoding} {dst : Bytes} (h : Pending s 0 0 dst) :
    (src : Bytes) → flush (src.foldl encode_byte s) = dst ++ base64 src
  | [] => by
    rw [List.foldl_nil, flush_none h]
    exact (List.append_nil dst).symm
  | [a] => by
    have h₁ := encode_first h a
    rw [List.foldl_cons, List.foldl_nil, flush_some h₁ (by decide) (by decide)]
    simp [base64, pack]
  | [a, b] => by
    have h₂ := encode_second (encode_first h a) b
    rw [List.foldl_cons, List.foldl_cons, List.foldl_nil, flush_some h₂ (by decide) (by decide)]
    simp [base64, pack]
  | a :: b :: c :: rest => by
    have h₃ := encode_third (encode_second (encode_first h a) b) c
    rw [List.foldl_cons, List.foldl_cons, List.foldl_cons, encode_bytes h₃ rest]
    simp [base64, pack]

theorem base64_length (src : Bytes) : (base64 src).length = b64len src.length := by
  rw [base64, List.length_map, pack_length, List.length_map, b64len]
  split_ifs <;> omega

theorem to_base64_eq (dst_len : ℕ) (src : Bytes) :
    to_base64 dst_len src =
      if dst_len ≤ (base64 src).length then none
      else some (base64 src ++ [0], (base64 src).length) := by
  have hstart : Pending ⟨0, 0, []⟩ 0 0 [] := ⟨rfl, rfl, rfl⟩
  simp only [to_base64, encode_bytes hstart src, base64_length, List.nil_append]

/-! ## `from_base64` -/

structure Decoding where
  acc : UInt32
  acc_len : ℕ
  dst : Bytes

/-- The state behind the last character, and what is left of the text; nothing if the bytes do
not fit into `dst_len`. -/
def decode_loop (dst_len : ℕ) : Bytes → Decoding → Option (Decoding × Bytes)
  | [], s => some (s, [])
  | c :: src, s =>
    let d := b64_char_to_byte (int_of_char c)
    if d = 0xFF then some (s, c :: src)
    else
      let acc := (s.acc <<< 6) + d
      let acc_len := s.acc_len + 6
      if 8 ≤ acc_len then
        let acc_len := acc_len - 8
        if dst_len ≤ s.dst.length then none
        else decode_loop dst_len src
          ⟨acc, acc_len, s.dst ++ [((acc >>> acc_len.toUInt32) &&& 0xFF).toUInt8]⟩
      else decode_loop dst_len src ⟨acc, acc_len, s.dst⟩

/-- The bytes and what is left of the text. -/
def from_base64 (dst_len : ℕ) (src : Bytes) : Option (Bytes × Bytes) := do
  let (s, src) ← decode_loop dst_len src ⟨0, 0, []⟩
  if 4 < s.acc_len ∨ s.acc &&& ((1 <<< s.acc_len.toUInt32) - 1) ≠ 0 then none
  else some (s.dst, src)

def octets (s : Bytes) : Bytes := (unpack (s.map value)).map Nat.toUInt8

theorem acc_char (acc d : UInt32) :
    ((acc <<< 6) + d).toNat = (acc.toNat * 64 + d.toNat) % 2 ^ 32 := by
  simp [UInt32.toNat_add, UInt32.toNat_shiftLeft, Nat.shiftLeft_eq]

theorem gathered {acc : UInt32} {k v : ℕ} (hk : k < 32) (h : acc.toNat / 2 ^ k % 256 = v) :
    ((acc >>> k.toUInt32) &&& 0xFF).toUInt8 = v.toUInt8 := by
  have hmod : k % 2 ^ 32 % 32 = k := by omega
  apply UInt8.toNat_inj.mp
  rw [UInt32.toNat_toUInt8, UInt32.toNat_and, UInt32.toNat_shiftRight, Nat.toUInt32_eq,
    UInt32.toNat_ofNat', hmod, Nat.shiftRight_eq_div_pow, Nat.toUInt8_eq, UInt8.toNat_ofNat', ← h]
  have hand : acc.toNat / 2 ^ k &&& (255 : UInt32).toNat = acc.toNat / 2 ^ k % 256 :=
    Nat.and_two_pow_sub_one_eq_mod _ 8
  rw [hand]

/-- The bits that make no byte yet are known. -/
structure Buffered (s : Decoding) (len low : ℕ) (dst : Bytes) : Prop where
  bits : s.acc_len = len
  rest : s.acc.toNat % 2 ^ len = low
  written : s.dst = dst

section Loop

variable {dst_len : ℕ} {s : Decoding} {low : ℕ} {dst : Bytes} {c : UInt8}

theorem decode_stop (h : value c = 255) (src : Bytes) :
    decode_loop dst_len (c :: src) s = some (s, c :: src) := by
  have hd : b64_char_to_byte (int_of_char c) = 0xFF := UInt32.toNat_inj.mp h
  rw [decode_loop, if_pos hd]

theorem decode_first (h : Buffered s 0 0 dst) (hc : value c < 64) : ∃ s',
    Buffered s' 6 (value c) dst ∧
    ∀ src, decode_loop dst_len (c :: src) s = decode_loop dst_len src s' := by
  have hd : b64_char_to_byte (int_of_char c) ≠ 0xFF := by
    intro heq
    rw [value, heq] at hc
    exact absurd hc (by decide)
  have hacc := acc_char s.acc (b64_char_to_byte (int_of_char c))
  refine ⟨⟨(s.acc <<< 6) + b64_char_to_byte (int_of_char c), 6, s.dst⟩, ⟨rfl, ?_, h.written⟩, ?_⟩
  · simp only [hacc, value]
    rw [value] at hc
    omega
  · intro src
    rw [decode_loop, if_neg hd, h.bits]
    rfl

/-- From the second character of a group on each one completes a byte. -/
theorem decode_next {len : ℕ} (h : Buffered s len low dst) (hlen : len = 2 ∨ len = 4 ∨ len = 6)
    (hc : value c < 64) : ∃ s',
    Buffered s' (len - 2) ((low * 64 + value c) % 2 ^ (len - 2))
      (dst ++ [((low * 64 + value c) / 2 ^ (len - 2)).toUInt8]) ∧
    ∀ src, decode_loop dst_len (c :: src) s =
      if dst_len ≤ dst.length then none else decode_loop dst_len src s' := by
  have hd : b64_char_to_byte (int_of_char c) ≠ 0xFF := by
    intro heq
    rw [value, heq] at hc
    exact absurd hc (by decide)
  have hacc := acc_char s.acc (b64_char_to_byte (int_of_char c))
  have hlow := h.rest
  have hbyte := @gathered ((s.acc <<< 6) + b64_char_to_byte (int_of_char c)) (len - 2)
    ((low * 64 + value c) / 2 ^ (len - 2)) (by omega) (by
      rw [hacc, ← hlow]
      change (s.acc.toNat * 64 + value c) % 2 ^ 32 / _ % _ = _
      rcases hlen with rfl | rfl | rfl <;> omega)
  refine ⟨⟨(s.acc <<< 6) + b64_char_to_byte (int_of_char c), len - 2,
    s.dst ++ [(((s.acc <<< 6) + b64_char_to_byte (int_of_char c)) >>>
      (len - 2).toUInt32 &&& 0xFF).toUInt8]⟩, ⟨rfl, ?_, ?_⟩, ?_⟩
  · change ((s.acc <<< 6) + b64_char_to_byte (int_of_char c)).toNat % _ = _
    rw [hacc, ← hlow]
    change (s.acc.toNat * 64 + value c) % 2 ^ 32 % _ = _
    rcases hlen with rfl | rfl | rfl <;> omega
  · rw [h.written, hbyte]
  · intro src
    have hfull : 8 ≤ len + 6 := by omega
    have hleft : len + 6 - 8 = len - 2 := by omega
    rw [decode_loop, if_neg hd, h.bits, if_pos hfull, hleft, h.written]

theorem decode_two {a b : UInt8} (h : Buffered s 0 0 dst) (ha : value a < 64)
    (hb : value b < 64) : ∃ s',
    Buffered s' 4 (value b % 16) (dst ++ octets [a, b]) ∧
    ∀ src, decode_loop dst_len (a :: b :: src) s =
      if dst_len ≤ dst.length then none else decode_loop dst_len src s' := by
  obtain ⟨s₁, h₁, hstep₁⟩ := @decode_first dst_len _ _ _ h ha
  obtain ⟨s₂, h₂, hstep₂⟩ := @decode_next dst_len _ _ _ _ _ h₁ (by simp) hb
  have hlow : (value a * 64 + value b) % 2 ^ (6 - 2) = value b % 16 := by omega
  have hbyte : (value a * 64 + value b) / 2 ^ (6 - 2) = value a * 4 + value b / 16 := by omega
  rw [hlow, hbyte] at h₂
  refine ⟨s₂, h₂, ?_⟩
  intro src
  rw [hstep₁, hstep₂]

theorem decode_three {a b c : UInt8} (h : Buffered s 0 0 dst) (ha : value a < 64)
    (hb : value b < 64) (hc : value c < 64) : ∃ s',
    Buffered s' 2 (value c % 4) (dst ++ octets [a, b, c]) ∧
    ∀ src, decode_loop dst_len (a :: b :: c :: src) s =
      if dst_len ≤ dst.length + 1 then none else decode_loop dst_len src s' := by
  obtain ⟨s₂, h₂, hstep₂⟩ := @decode_two dst_len _ _ _ _ h ha hb
  obtain ⟨s₃, h₃, hstep₃⟩ := @decode_next dst_len _ _ _ _ _ h₂ (by simp) hc
  have hlow : (value b % 16 * 64 + value c) % 2 ^ (4 - 2) = value c % 4 := by omega
  have hbyte : (value b % 16 * 64 + value c) / 2 ^ (4 - 2) = value b % 16 * 16 + value c / 4 := by
    omega
  rw [hlow, hbyte, List.append_assoc] at h₃
  refine ⟨s₃, h₃, ?_⟩
  intro src
  rw [hstep₂, hstep₃, List.length_append]
  change (if dst_len ≤ dst.length then none else if dst_len ≤ dst.length + 1 then none else _) = _
  split_ifs <;> first | rfl | omega

theorem decode_group {a b c d : UInt8} (h : Buffered s 0 0 dst) (ha : value a < 64)
    (hb : value b < 64) (hc : value c < 64) (hd : value d < 64) : ∃ s',
    Buffered s' 0 0 (dst ++ octets [a, b, c, d]) ∧
    ∀ src, decode_loop dst_len (a :: b :: c :: d :: src) s =
      if dst_len ≤ dst.length + 2 then none else decode_loop dst_len src s' := by
  obtain ⟨s₃, h₃, hstep₃⟩ := @decode_three dst_len _ _ _ _ _ h ha hb hc
  obtain ⟨s₄, h₄, hstep₄⟩ := @decode_next dst_len _ _ _ _ _ h₃ (by simp) hd
  have hlow : (value c % 4 * 64 + value d) % 2 ^ (2 - 2) = 0 := by omega
  have hbyte : (value c % 4 * 64 + value d) / 2 ^ (2 - 2) = value c % 4 * 64 + value d := by omega
  rw [hlow, hbyte, List.append_assoc] at h₄
  refine ⟨s₄, h₄, ?_⟩
  intro src
  rw [hstep₃, hstep₄, List.length_append]
  change (if dst_len ≤ dst.length + 1 then none
    else if dst_len ≤ dst.length + 2 then none else _) = _
  split_ifs <;> first | rfl | omega

/-- How many bits the last characters leave in the accumulator, and which. -/
def left_over : List ℕ → ℕ × ℕ
  | _ :: _ :: _ :: _ :: rest => left_over rest
  | [_, _, c] => (2, c % 4)
  | [_, b] => (4, b % 16)
  | [a] => (6, a)
  | [] => (0, 0)

def Stops (rest : Bytes) : Prop := ∀ c, rest.head? = some c → value c = 255

theorem decode_rest {rest : Bytes} (h : Stops rest) (s : Decoding) :
    decode_loop dst_len rest s = some (s, rest) := by
  cases rest with
  | nil => rfl
  | cons c rest => exact decode_stop (h c rfl) rest

theorem octets_group (a b c d : UInt8) (body : Bytes) :
    octets (a :: b :: c :: d :: body) = octets [a, b, c, d] ++ octets body := by
  simp [octets, unpack]

theorem decode_loop_fits {rest : Bytes} (hrest : Stops rest) {s : Decoding} {dst : Bytes}
    (h : Buffered s 0 0 dst) :
    (body : Bytes) → (∀ c ∈ body, value c < 64) → dst.length + (octets body).length ≤ dst_len →
      ∃ s', Buffered s' (left_over (body.map value)).1 (left_over (body.map value)).2
        (dst ++ octets body) ∧ decode_loop dst_len (body ++ rest) s = some (s', rest)
  | [], _, _ => by
    refine ⟨s, ?_, decode_rest hrest s⟩
    simpa [octets, unpack, left_over] using h
  | [a], hv, _ => by
    obtain ⟨s₁, h₁, hstep₁⟩ := @decode_first dst_len _ _ _ h (hv a (by simp))
    refine ⟨s₁, ?_, ?_⟩
    · simpa [octets, unpack, left_over] using h₁
    · exact (hstep₁ rest).trans (decode_rest hrest s₁)
  | [a, b], hv, hfit => by
    obtain ⟨s₂, h₂, hstep₂⟩ := @decode_two dst_len _ _ _ _ h (hv a (by simp)) (hv b (by simp))
    change dst.length + 1 ≤ dst_len at hfit
    refine ⟨s₂, h₂, (hstep₂ rest).trans ?_⟩
    rw [if_neg (by omega), decode_rest hrest]
  | [a, b, c], hv, hfit => by
    obtain ⟨s₃, h₃, hstep₃⟩ := @decode_three dst_len _ _ _ _ _ h (hv a (by simp)) (hv b (by simp))
      (hv c (by simp))
    change dst.length + 2 ≤ dst_len at hfit
    refine ⟨s₃, h₃, (hstep₃ rest).trans ?_⟩
    rw [if_neg (by omega), decode_rest hrest]
  | a :: b :: c :: d :: body, hv, hfit => by
    obtain ⟨s₄, h₄, hstep₄⟩ := @decode_group dst_len _ _ _ _ _ _ h (hv a (by simp))
      (hv b (by simp)) (hv c (by simp)) (hv d (by simp))
    have hthree : (octets [a, b, c, d]).length = 3 := rfl
    rw [octets_group, List.length_append, hthree] at hfit
    obtain ⟨s', h', hloop⟩ := decode_loop_fits hrest h₄ body (fun x hx => hv x (by simp [hx]))
      (by rw [List.length_append, hthree]; omega)
    rw [octets_group, ← List.append_assoc]
    refine ⟨s', h', (hstep₄ (body ++ rest)).trans ?_⟩
    rw [if_neg (by omega), hloop]

theorem decode_loop_over {rest : Bytes} {s : Decoding} {dst : Bytes}
    (h : Buffered s 0 0 dst) (hfit : dst.length ≤ dst_len) :
    (body : Bytes) → (∀ c ∈ body, value c < 64) → dst_len < dst.length + (octets body).length →
      decode_loop dst_len (body ++ rest) s = none
  | [], _, hover => absurd hover (Nat.not_lt.mpr hfit)
  | [_], _, hover => absurd hover (Nat.not_lt.mpr hfit)
  | [a, b], hv, hover => by
    obtain ⟨s₂, h₂, hstep₂⟩ := @decode_two dst_len _ _ _ _ h (hv a (by simp)) (hv b (by simp))
    change dst_len < dst.length + 1 at hover
    refine (hstep₂ rest).trans ?_
    rw [if_pos (by omega)]
  | [a, b, c], hv, hover => by
    obtain ⟨s₃, h₃, hstep₃⟩ := @decode_three dst_len _ _ _ _ _ h (hv a (by simp)) (hv b (by simp))
      (hv c (by simp))
    change dst_len < dst.length + 2 at hover
    refine (hstep₃ rest).trans ?_
    rw [if_pos (by omega)]
  | a :: b :: c :: d :: body, hv, hover => by
    obtain ⟨s₄, h₄, hstep₄⟩ := @decode_group dst_len _ _ _ _ _ _ h (hv a (by simp))
      (hv b (by simp)) (hv c (by simp)) (hv d (by simp))
    have hthree : (octets [a, b, c, d]).length = 3 := rfl
    rw [octets_group, List.length_append, hthree] at hover
    refine (hstep₄ (body ++ rest)).trans ?_
    by_cases hroom : dst_len ≤ dst.length + 2
    · exact if_pos hroom
    · rw [if_neg hroom]
      refine decode_loop_over h₄ ?_ body (fun x hx => hv x (by simp [hx])) ?_
      · rw [List.length_append, hthree]
        omega
      · rw [List.length_append, hthree]
        omega

end Loop

/-- No bits are lost: the characters make whole bytes, and the bits behind them are zero. -/
def Whole (s : List ℕ) : Prop := (left_over s).1 ≤ 4 ∧ (left_over s).2 = 0

instance (s : List ℕ) : Decidable (Whole s) := inferInstanceAs (Decidable (_ ∧ _))

theorem low_bits {acc : UInt32} {len : ℕ} (h : len < 32) :
    acc &&& ((1 <<< len.toUInt32) - 1) = 0 ↔ acc.toNat % 2 ^ len = 0 := by
  have hmod : len % 2 ^ 32 % 32 = len := by omega
  have hpow : 2 ^ len < 2 ^ 32 := Nat.pow_lt_pow_right (by decide) h
  have hpos : 0 < 2 ^ len := Nat.two_pow_pos len
  have hmask : (1 <<< len.toUInt32 - 1 : UInt32).toNat = 2 ^ len - 1 := by
    have hone : (1 <<< len.toUInt32 : UInt32).toNat = 2 ^ len := by
      rw [UInt32.toNat_shiftLeft, Nat.toUInt32_eq, UInt32.toNat_ofNat', hmod, UInt32.toNat_one,
        Nat.shiftLeft_eq, Nat.one_mul, Nat.mod_eq_of_lt hpow]
    rw [UInt32.toNat_sub_of_le, hone, UInt32.toNat_one]
    rw [UInt32.le_iff_toNat_le, hone, UInt32.toNat_one]
    exact hpos
  rw [← UInt32.toNat_inj, UInt32.toNat_and, hmask, Nat.and_two_pow_sub_one_eq_mod]
  rfl

theorem left_over_lt : (s : List ℕ) → (left_over s).1 < 32
  | _ :: _ :: _ :: _ :: rest => left_over_lt rest
  | [_, _, _] => (by decide : 2 < 32)
  | [_, _] => (by decide : 4 < 32)
  | [_] => (by decide : 6 < 32)
  | [] => (by decide : 0 < 32)

theorem from_base64_eq {dst_len : ℕ} {body rest : Bytes} (hbody : ∀ c ∈ body, value c < 64)
    (hrest : Stops rest) :
    from_base64 dst_len (body ++ rest) =
      if (octets body).length ≤ dst_len ∧ Whole (body.map value) then some (octets body, rest)
      else none := by
  have hstart : Buffered ⟨0, 0, []⟩ 0 0 [] := ⟨rfl, rfl, rfl⟩
  by_cases hfit : (octets body).length ≤ dst_len
  · obtain ⟨s, h, hloop⟩ := @decode_loop_fits dst_len rest hrest _ _ hstart body hbody
      (by simpa using hfit)
    have hzero := @low_bits s.acc _ (left_over_lt (body.map value))
    rw [h.rest] at hzero
    rw [from_base64, hloop]
    simp only [Option.bind_eq_bind, Option.bind_some, h.bits, h.written, List.nil_append, ne_eq,
      hzero, hfit, true_and, Whole]
    by_cases hbits : (left_over (body.map value)).1 ≤ 4 <;>
      by_cases hlow : (left_over (body.map value)).2 = 0 <;> simp [hbits, hlow]
  · rw [from_base64, decode_loop_over hstart (Nat.zero_le _) body hbody
      (by simpa using Nat.lt_of_not_le hfit), if_neg fun h => hfit h.1]
    rfl

theorem exists_stop (src : Bytes) : ∃ body rest, src = body ++ rest ∧
    (∀ c ∈ body, value c < 64) ∧ Stops rest := by
  refine ⟨src.takeWhile (value · ≠ 255), src.dropWhile (value · ≠ 255),
    List.takeWhile_append_dropWhile.symm, ?_, ?_⟩
  · intro c hc
    have hne := List.mem_takeWhile_imp hc
    exact value_lt (by simpa using hne)
  · intro c hc
    have hstop := List.head?_dropWhile_not (value · ≠ 255) src
    rw [hc] at hstop
    simpa using hstop

theorem from_base64_iff {dst_len : ℕ} {src x rest : Bytes} :
    from_base64 dst_len src = some (x, rest) ↔
      ∃ body, src = body ++ rest ∧ (∀ c ∈ body, value c < 64) ∧ Stops rest ∧
        Whole (body.map value) ∧ octets body = x ∧ x.length ≤ dst_len := by
  constructor
  · intro h
    obtain ⟨body, rest', rfl, hbody, hrest⟩ := exists_stop src
    rw [from_base64_eq hbody hrest] at h
    split at h
    · next hok =>
      obtain ⟨rfl, rfl⟩ := Prod.mk.inj (Option.some.inj h)
      exact ⟨body, rfl, hbody, hrest, hok.2, rfl, hok.1⟩
    · cases h
  · rintro ⟨body, rfl, hbody, hrest, hwhole, rfl, hlen⟩
    rw [from_base64_eq hbody hrest, if_pos ⟨hlen, hwhole⟩]

theorem whole_pack (x : List ℕ) : Whole (pack x) := by
  induction x using pack.induct with
  | case1 a b c rest ih => exact ih
  | case2 a b => exact ⟨(by decide : 2 ≤ 4), Nat.mul_mod_left _ 4⟩
  | case3 a => exact ⟨(by decide : 4 ≤ 4), Nat.mul_mod_left _ 16⟩
  | case4 => exact ⟨(by decide : 0 ≤ 4), rfl⟩

/-- The two conditions in terms of the length and the last value. -/
theorem tailZero_of_whole : (s : List ℕ) → Whole s → s.length % 4 ≠ 1 ∧ TailZero s
  | a :: b :: c :: d :: rest, h => by
    obtain ⟨hlen, htwo, hthree⟩ := tailZero_of_whole rest h
    have hmod : (a :: b :: c :: d :: rest).length % 4 = rest.length % 4 := by
      simp only [List.length_cons]
      omega
    have hlast : rest.length % 4 ≠ 0 →
        (a :: b :: c :: d :: rest).getLast? = rest.getLast? := by
      intro hne
      cases rest with
      | nil => exact absurd rfl hne
      | cons e rest => simp
    rw [TailZero, hmod]
    refine ⟨hlen, fun h2 => ?_, fun h3 => ?_⟩
    · rw [hlast (by omega)]
      exact htwo h2
    · rw [hlast (by omega)]
      exact hthree h3
  | [a, b, c], h => by
    refine ⟨(by decide : 3 % 4 ≠ 1), fun h2 => absurd h2 (by decide : ¬3 % 4 = 2), fun _ v hv => ?_⟩
    rw [← Option.some.inj hv]
    exact h.2
  | [a, b], h => by
    refine ⟨(by decide : 2 % 4 ≠ 1), fun _ v hv => ?_, fun h3 => absurd h3 (by decide : ¬2 % 4 = 3)⟩
    rw [← Option.some.inj hv]
    exact h.2
  | [a], h => absurd h.1 (by decide : ¬6 ≤ 4)
  | [], _ => ⟨(by decide : 0 % 4 ≠ 1), fun h => absurd h (by decide : ¬0 % 4 = 2),
    fun h => absurd h (by decide : ¬0 % 4 = 3)⟩

theorem octets_lt (x : Bytes) : ∀ v ∈ x.map UInt8.toNat, v < 256 := by
  intro v hv
  obtain ⟨c, -, rfl⟩ := List.mem_map.mp hv
  exact c.toNat_lt

theorem map_value_base64 (x : Bytes) : (base64 x).map value = pack (x.map UInt8.toNat) := by
  rw [base64, List.map_map]
  refine (List.map_congr_left fun v hv => ?_).trans (List.map_id _)
  exact value_char v (pack_lt (octets_lt x) v hv)

theorem octets_base64 (x : Bytes) : octets (base64 x) = x := by
  rw [octets, map_value_base64, unpack_pack (octets_lt x), List.map_map]
  refine (List.map_congr_left fun c _ => ?_).trans (List.map_id x)
  simp

theorem base64_values (x : Bytes) : ∀ c ∈ base64 x, value c < 64 := by
  intro c hc
  have hv := List.mem_map_of_mem (f := value) hc
  rw [map_value_base64] at hv
  exact pack_lt (octets_lt x) _ hv

/-- The characters that are written for the values of a text: a byte from 128 on is read as `/`. -/
theorem base64_octets {body : Bytes} (hbody : ∀ c ∈ body, value c < 64)
    (hwhole : Whole (body.map value)) : base64 (octets body) = body.map (char ∘ value) := by
  have hvalues : ∀ v ∈ body.map value, v < 64 := by
    intro v hv
    obtain ⟨c, hc, rfl⟩ := List.mem_map.mp hv
    exact hbody c hc
  have hoctets : (octets body).map UInt8.toNat = unpack (body.map value) := by
    rw [octets, List.map_map]
    refine (List.map_congr_left fun v hv => ?_).trans (List.map_id _)
    have hlt := unpack_lt hvalues v hv
    simp only [Function.comp_apply, Nat.toUInt8_eq, UInt8.toNat_ofNat', id_eq]
    omega
  obtain ⟨hlen, hzero⟩ := tailZero_of_whole _ hwhole
  rw [base64, hoctets, pack_unpack hvalues hlen hzero, List.map_map]

theorem char_value : ∀ n < 256, value n.toUInt8 < 64 →
    char (value n.toUInt8) = if 128 ≤ n then 47 else n.toUInt8 := by
  decide +kernel

/-! ## Decimal numbers -/

def ULONG_MAX : ℕ := 2 ^ 64 - 1

/-- The value of the digits, and what is left of the text. -/
def decimal_loop : Bytes → ℕ → Option (ℕ × Bytes)
  | [], acc => some (acc, [])
  | c :: str, acc =>
    if c < 48 ∨ 57 < c then some (acc, c :: str)
    else
      let c := c.toNat - 48
      if ULONG_MAX / 10 < acc then none
      else
        let acc := acc * 10
        if ULONG_MAX - acc < c then none else decimal_loop str (acc + c)

def decode_decimal (orig : Bytes) : Option (ℕ × Bytes) := do
  let (acc, str) ← decimal_loop orig 0
  if str.length = orig.length ∨ orig.head? = some 48 ∧ str.length + 1 ≠ orig.length then none
  else some (acc, str)

def number (acc : ℕ) (s : Bytes) : ℕ := s.foldl (fun acc c => acc * 10 + (c.toNat - 48)) acc

def IsDigit (c : UInt8) : Prop := 48 ≤ c.toNat ∧ c.toNat ≤ 57

def Ends (rest : Bytes) : Prop := ∀ c, rest.head? = some c → ¬IsDigit c

theorem not_isDigit {c : UInt8} : ¬IsDigit c ↔ c < 48 ∨ 57 < c := by
  rw [IsDigit, UInt8.lt_iff_toNat_lt, UInt8.lt_iff_toNat_lt]
  change ¬(48 ≤ c.toNat ∧ c.toNat ≤ 57) ↔ c.toNat < 48 ∨ 57 < c.toNat
  omega

theorem le_number (s : Bytes) (acc : ℕ) : acc ≤ number acc s := by
  induction s generalizing acc with
  | nil => exact Nat.le_refl acc
  | cons c s ih =>
    have hstep := ih (acc * 10 + (c.toNat - 48))
    change acc ≤ number (acc * 10 + (c.toNat - 48)) s
    omega

theorem decimal_loop_eq {s rest : Bytes} (hs : ∀ c ∈ s, IsDigit c) (hrest : Ends rest) {acc : ℕ}
    (hacc : acc ≤ ULONG_MAX) :
    decimal_loop (s ++ rest) acc =
      if number acc s ≤ ULONG_MAX then some (number acc s, rest) else none := by
  induction s generalizing acc with
  | nil =>
    rw [List.nil_append, number, List.foldl_nil, if_pos hacc]
    cases rest with
    | nil => rfl
    | cons c rest => rw [decimal_loop, if_pos (not_isDigit.mp (hrest c rfl))]
  | cons c s ih =>
    have hc : ¬(c < 48 ∨ 57 < c) := fun h => not_isDigit.mpr h (hs c (by simp))
    have hs' : ∀ c ∈ s, IsDigit c := fun x hx => hs x (by simp [hx])
    have hle := le_number s (acc * 10 + (c.toNat - 48))
    change _ = if number (acc * 10 + (c.toNat - 48)) s ≤ ULONG_MAX then
      some (number (acc * 10 + (c.toNat - 48)) s, rest) else none
    rw [List.cons_append, decimal_loop, if_neg hc]
    have hmax : ULONG_MAX = 2 ^ 64 - 1 := rfl
    by_cases hnext : acc * 10 + (c.toNat - 48) ≤ ULONG_MAX
    · rw [if_neg (by omega), if_neg (by omega), ih hs' hnext]
    · rw [if_neg (by omega : ¬number _ s ≤ _)]
      by_cases hover : ULONG_MAX / 10 < acc
      · rw [if_pos hover]
      · have hlast : ULONG_MAX - acc * 10 < c.toNat - 48 := by omega
        rw [if_neg hover]
        exact if_pos hlast

theorem number_digits (n : ℕ) : number 0 (digits n) = n := by
  have hfold : ∀ (s : Bytes) (acc : ℕ), (∀ c ∈ s, IsDigit c) →
      s.foldlM read_digit acc = some (number acc s) := by
    intro s
    induction s with
    | nil => intro acc _; rfl
    | cons c s ih =>
      intro acc hs
      have hc : 48 ≤ c.toNat ∧ c.toNat ≤ 57 := hs c (by simp)
      rw [List.foldlM_cons, read_digit, if_pos hc, Nat.mul_comm 10]
      exact ih _ fun x hx => hs x (by simp [hx])
  have hread := read_digits_digits n
  rw [read_digits, if_neg (digits_ne_nil n), hfold _ 0 fun c hc => digits_range hc] at hread
  exact Option.some.inj hread

theorem digits_number {s : Bytes} (hs : ∀ c ∈ s, IsDigit c) (hne : s ≠ [])
    (hzero : s.head? = some 48 → s.length = 1) : digits (number 0 s) = s := by
  induction s using List.reverseRecOn with
  | nil => exact absurd rfl hne
  | append_singleton s c ih =>
    obtain ⟨hlow, hhigh⟩ := hs c (by simp)
    have hc : digit (c.toNat - 48) = c := by
      apply UInt8.toNat_inj.mp
      rw [digit_toNat (by omega)]
      omega
    have hnum : number 0 (s ++ [c]) = number 0 s * 10 + (c.toNat - 48) := by
      rw [number, List.foldl_append]
      rfl
    rw [hnum]
    by_cases hnil : s = []
    · subst hnil
      change digits (0 * 10 + (c.toNat - 48)) = [c]
      rw [digits_of_lt (by omega), Nat.zero_mul, Nat.zero_add, hc]
    · have hhead : s.head? ≠ some 48 := by
        intro h48
        have hone := hzero (by rw [List.head?_append_of_ne_nil s hnil, h48])
        rw [List.length_append, List.length_singleton] at hone
        exact hnil (List.length_eq_zero_iff.mp (by omega))
      have hdigits := ih (fun x hx => hs x (by simp [hx])) hnil fun h48 => absurd h48 hhead
      have hpos : number 0 s ≠ 0 := by
        intro h0
        rw [h0] at hdigits
        exact hhead (by rw [← hdigits]; rfl)
      have hdiv : (number 0 s * 10 + (c.toNat - 48)) / 10 = number 0 s := by omega
      have hmod : (number 0 s * 10 + (c.toNat - 48)) % 10 = c.toNat - 48 := by omega
      rw [digits_of_ge (by omega), hdiv, hmod, hdigits, hc]

theorem exists_end (orig : Bytes) : ∃ s rest, orig = s ++ rest ∧ (∀ c ∈ s, IsDigit c) ∧
    Ends rest := by
  classical
  refine ⟨orig.takeWhile (IsDigit ·), orig.dropWhile (IsDigit ·),
    List.takeWhile_append_dropWhile.symm, ?_, ?_⟩
  · intro c hc
    simpa using List.mem_takeWhile_imp hc
  · intro c hc
    have hstop := List.head?_dropWhile_not (IsDigit ·) orig
    rw [hc] at hstop
    simpa using hstop

theorem decode_decimal_eq {s rest : Bytes} (hs : ∀ c ∈ s, IsDigit c) (hrest : Ends rest) :
    decode_decimal (s ++ rest) =
      if number 0 s ≤ ULONG_MAX ∧ s ≠ [] ∧ (s.head? = some 48 → s.length = 1) then
        some (number 0 s, rest)
      else none := by
  have hnone : (s ++ rest).length = rest.length ↔ s = [] := by
    rw [List.length_append, ← List.length_eq_zero_iff]
    omega
  have hlead : (rest.length = (s ++ rest).length ∨
      (s ++ rest).head? = some 48 ∧ rest.length + 1 ≠ (s ++ rest).length) ↔
      ¬(s ≠ [] ∧ (s.head? = some 48 → s.length = 1)) := by
    by_cases hnil : s = []
    · rw [hnil]
      simp
    · rw [List.head?_append_of_ne_nil s hnil, eq_comm, hnone, List.length_append]
      have hlen : rest.length + 1 ≠ s.length + rest.length ↔ s.length ≠ 1 := by omega
      rw [hlen]
      tauto
  rw [decode_decimal, decimal_loop_eq hs hrest (Nat.zero_le _)]
  by_cases hmax : number 0 s ≤ ULONG_MAX
  · rw [if_pos hmax]
    simp only [Option.bind_eq_bind, Option.bind_some, hlead, hmax, true_and, ite_not]
  · rw [if_neg hmax, if_neg fun h => hmax h.1]
    rfl

/-- Exactly the digits of a number of 64 bits are read. -/
theorem decode_decimal_iff {orig rest : Bytes} {n : ℕ} :
    decode_decimal orig = some (n, rest) ↔ orig = digits n ++ rest ∧ Ends rest ∧ n < 2 ^ 64 := by
  have hmax : ULONG_MAX = 2 ^ 64 - 1 := rfl
  constructor
  · intro h
    obtain ⟨s, rest', rfl, hs, hrest⟩ := exists_end orig
    rw [decode_decimal_eq hs hrest] at h
    split at h
    · next hok =>
      obtain ⟨rfl, rfl⟩ := Prod.mk.inj (Option.some.inj h)
      obtain ⟨hfits, hne, hzero⟩ := hok
      exact ⟨by rw [digits_number hs hne hzero], hrest, by omega⟩
    · cases h
  · rintro ⟨rfl, hrest, hn⟩
    rw [decode_decimal_eq (fun c hc => digits_range hc) hrest, number_digits, if_pos]
    refine ⟨by omega, digits_ne_nil n, fun h48 => ?_⟩
    rw [digits_head_zero h48]
    rfl

end Argon2Base64
