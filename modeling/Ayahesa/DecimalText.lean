import Ayahesa.CMemory
import Mathlib.Data.List.Basic

/-! # Integers in decimal, as `%d` prints them -/
namespace DecimalText

open CMemory

def digits (n : ℕ) : Bytes := (Nat.toDigits 10 n).map fun c => c.toNat.toUInt8

def decimal (i : ℤ) : Bytes := if i < 0 then 45 :: digits i.natAbs else digits i.natAbs

theorem digit_bounds {c : Char} (h : c.isDigit) : 48 ≤ c.toNat ∧ c.toNat ≤ 57 := by
  simpa [Char.isDigit, UInt32.le_iff_toNat_le] using h

theorem digit_byte {c : Char} (h : c.isDigit) : c.toNat.toUInt8.toNat = c.toNat := by
  have hu := (digit_bounds h).2
  simp only [Nat.toUInt8_eq, UInt8.toNat_ofNat']
  omega

theorem digits_range {n : ℕ} {x : UInt8} (h : x ∈ digits n) : 48 ≤ x.toNat ∧ x.toNat ≤ 57 := by
  obtain ⟨c, hc, rfl⟩ := List.mem_map.mp h
  have hdigit := Nat.isDigit_of_mem_toDigits (by decide) (by decide) hc
  rw [digit_byte hdigit]
  exact digit_bounds hdigit

theorem digits_ne_nil (n : ℕ) : digits n ≠ [] := by
  simp [digits, Nat.toDigits_ne_nil]

theorem digits_chars (n : ℕ) :
    (digits n).map (fun x => Char.ofNat x.toNat) = Nat.toDigits 10 n := by
  rw [digits, List.map_map]
  refine (List.map_congr_left fun c hc => ?_).trans (List.map_id _)
  have hdigit := Nat.isDigit_of_mem_toDigits (by decide) (by decide) hc
  simp only [Function.comp_apply, digit_byte hdigit, Char.ofNat_toNat, id_eq]

theorem digits_injective {n m : ℕ} (h : digits n = digits m) : n = m := by
  have hchars : Nat.toDigits 10 n = Nat.toDigits 10 m := by
    rw [← digits_chars, h, digits_chars]
  rw [← Nat.ofDigitChars_ten_toDigits (n := n), hchars, Nat.ofDigitChars_ten_toDigits]

/-! ## One digit after the other -/

def digit (d : ℕ) : UInt8 := (48 + d).toUInt8

theorem digitChar_byte {d : ℕ} (h : d < 10) : (Nat.digitChar d).toNat.toUInt8 = digit d := by
  rw [Nat.toNat_digitChar_of_lt_ten h, digit]

theorem digit_toNat {d : ℕ} (h : d < 10) : (digit d).toNat = 48 + d := by
  simp only [digit, Nat.toUInt8_eq, UInt8.toNat_ofNat']
  omega

theorem digits_of_lt {n : ℕ} (h : n < 10) : digits n = [digit n] := by
  rw [digits, Nat.toDigits_of_lt_base h, List.map_singleton, digitChar_byte h]

/-- The last digit is the remainder, and the quotient stands in front of it. -/
theorem digits_of_ge {n : ℕ} (h : 10 ≤ n) : digits n = digits (n / 10) ++ [digit (n % 10)] := by
  have hlast : n % 10 < 10 := Nat.mod_lt n (by decide)
  rw [digits, Nat.toDigits_of_base_le (by decide) h, List.map_append, List.map_singleton,
    digitChar_byte hlast, digits]

theorem digits_length_iff {n k : ℕ} (hk : 0 < k) : (digits n).length ≤ k ↔ n < 10 ^ k := by
  rw [digits, List.length_map]
  exact Nat.length_toDigits_le_iff (by decide) hk

theorem digits_length {n k : ℕ} (hk : 0 < k) (hn : n < 10 ^ k) : (digits n).length ≤ k :=
  (digits_length_iff hk).mpr hn

theorem digits_head_zero {n : ℕ} (h : (digits n).head? = some 48) : n = 0 := by
  induction n using Nat.strong_induction_on with
  | h n ih =>
    by_cases hn : n < 10
    · rw [digits_of_lt hn, List.head?_cons] at h
      have hbyte := congrArg UInt8.toNat (Option.some.inj h)
      rw [digit_toNat hn] at hbyte
      exact Nat.add_left_cancel hbyte
    · have hge : 10 ≤ n := Nat.le_of_not_lt hn
      rw [digits_of_ge hge, List.head?_append_of_ne_nil _ (digits_ne_nil (n / 10))] at h
      have hzero := ih (n / 10) (by omega) h
      omega

theorem decimal_clean (i : ℤ) : 0 ∉ decimal i := by
  have hdigits : 0 ∉ digits i.natAbs := by
    intro h0
    have hrange := digits_range h0
    simp at hrange
  unfold decimal
  split
  · simpa using hdigits
  · exact hdigits

theorem decimal_length {i : ℤ} {k : ℕ} (hk : 0 < k) (hi : i.natAbs < 10 ^ k) :
    (decimal i).length ≤ k + 1 := by
  have hdigits := digits_length hk hi
  unfold decimal
  split
  · rw [List.length_cons]
    omega
  · omega

/-! ## Reading a number back -/

/-- The value of a text of digits behind the digits that were read already. -/
def read_digit (n : ℕ) (c : UInt8) : Option ℕ :=
  if 48 ≤ c.toNat ∧ c.toNat ≤ 57 then some (10 * n + (c.toNat - 48)) else none

def read_digits (s : Bytes) : Option ℕ := if s = [] then none else s.foldlM read_digit 0

/-- A number may have a minus sign in front of its digits. -/
def read_decimal (s : Bytes) : Option ℤ :=
  if s.head? = some 45 then (read_digits s.tail).map fun n : ℕ => -(n : ℤ)
  else (read_digits s).map fun n : ℕ => (n : ℤ)

theorem read_digit_digit (n : ℕ) {d : ℕ} (h : d < 10) :
    read_digit n (digit d) = some (10 * n + d) := by
  rw [read_digit, digit_toNat h, if_pos ⟨by omega, by omega⟩, Nat.add_sub_cancel_left]

theorem read_digits_digits (n : ℕ) : read_digits (digits n) = some n := by
  rw [read_digits, if_neg (digits_ne_nil n)]
  induction n using Nat.strong_induction_on with
  | h n ih =>
    by_cases hn : n < 10
    · rw [digits_of_lt hn, List.foldlM_cons, read_digit_digit 0 hn, Nat.mul_zero, Nat.zero_add]
      rfl
    · have hge : 10 ≤ n := Nat.le_of_not_lt hn
      have hlast := read_digit_digit (n / 10) (Nat.mod_lt n (by decide : 0 < 10))
      rw [Nat.div_add_mod] at hlast
      rw [digits_of_ge hge, List.foldlM_append, ih (n / 10) (by omega)]
      change ([digit (n % 10)].foldlM read_digit (n / 10)) = some n
      rw [List.foldlM_cons, hlast]
      rfl

theorem digits_unsigned (n : ℕ) : (digits n).head? ≠ some 45 := by
  intro h
  have hrange := digits_range (List.mem_of_head? h)
  simp at hrange

/-- A minus sign stands in front of exactly the negative numbers. -/
theorem decimal_head_iff (i : ℤ) : (decimal i).head? = some 45 ↔ i < 0 := by
  unfold decimal
  split
  · next h => exact iff_of_true rfl h
  · next h => exact iff_of_false (digits_unsigned i.natAbs) h

theorem read_decimal_decimal (i : ℤ) : read_decimal (decimal i) = some i := by
  unfold read_decimal
  by_cases h : i < 0
  · rw [if_pos ((decimal_head_iff i).mpr h), decimal, if_pos h, List.tail_cons, read_digits_digits,
      Option.map_some]
    congr 1
    omega
  · rw [if_neg (mt (decimal_head_iff i).mp h), decimal, if_neg h, read_digits_digits,
      Option.map_some]
    congr 1
    omega

def unsigned (s : Bytes) : Bytes := if s.head? = some 45 then s.tail else s

/-- Digits behind an optional sign; only the text of zero starts with the digit zero. -/
structure Canonical (s : Bytes) : Prop where
  digits : unsigned s ≠ [] ∧ ∀ c ∈ unsigned s, 48 ≤ c.toNat ∧ c.toNat ≤ 57
  leading : (unsigned s).head? = some 48 → s = [48]

theorem unsigned_decimal (i : ℤ) : unsigned (decimal i) = digits i.natAbs := by
  unfold unsigned
  by_cases h : i < 0
  · rw [if_pos ((decimal_head_iff i).mpr h), decimal, if_pos h, List.tail_cons]
  · rw [if_neg (mt (decimal_head_iff i).mp h), decimal, if_neg h]

theorem decimal_canonical (i : ℤ) : Canonical (decimal i) := by
  constructor
  · rw [unsigned_decimal]
    exact ⟨digits_ne_nil i.natAbs, fun c hc => digits_range hc⟩
  · intro h
    rw [unsigned_decimal] at h
    obtain rfl := Int.natAbs_eq_zero.mp (digits_head_zero h)
    rfl

end DecimalText
