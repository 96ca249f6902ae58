import Ayahesa.CompatStrings
import Mathlib.Algebra.GroupWithZero.Nat

/-! # Hexadecimal numerals of a fixed width -/
namespace HexNumerals

open CMemory
open CompatStrings (tolower)

def hexDigit (d : ℕ) : UInt8 := if d < 10 then (48 + d).toUInt8 else (87 + d).toUInt8

/-- The last digits of a number, as many as the width. -/
def numeral : ℕ → ℕ → Bytes
  | 0, _ => []
  | width + 1, n => numeral width (n / 16) ++ [hexDigit (n % 16)]

/-- `isxdigit` in the C locale. -/
def isxdigit (c : UInt8) : Bool :=
  (48 ≤ c && c ≤ 57) || (65 ≤ c && c ≤ 70) || (97 ≤ c && c ≤ 102)

def digitValue (c : UInt8) : ℕ :=
  if c ≤ 57 then c.toNat - 48 else if c ≤ 70 then c.toNat - 55 else c.toNat - 87

def value (s : Bytes) : ℕ := s.foldl (fun v c => 16 * v + digitValue c) 0

theorem numeral_length (width n : ℕ) : (numeral width n).length = width := by
  induction width generalizing n with
  | zero => rfl
  | succ width ih => rw [numeral, List.length_append, ih, List.length_singleton]

theorem value_snoc (s : Bytes) (c : UInt8) : value (s ++ [c]) = 16 * value s + digitValue c := by
  rw [value, List.foldl_append]
  rfl

theorem digitValue_hexDigit : ∀ d < 16, digitValue (hexDigit d) = d := by decide

/-- A numeral is read as the number, up to what the width leaves off. -/
theorem value_numeral (width n : ℕ) : value (numeral width n) = n % 16 ^ width := by
  induction width generalizing n with
  | zero => rw [Nat.pow_zero, Nat.mod_one]; rfl
  | succ width ih =>
    have hdigit := digitValue_hexDigit (n % 16) (Nat.mod_lt n (by decide))
    rw [numeral, value_snoc, ih, hdigit, Nat.pow_succ', Nat.mod_mul, Nat.add_comm]

theorem digit_of_isxdigit {c : UInt8} (h : isxdigit c = true) :
    digitValue c < 16 ∧ hexDigit (digitValue c) = tolower c := by
  have hall : ∀ n < 256, isxdigit (UInt8.ofNat n) = true → digitValue (UInt8.ofNat n) < 16 ∧
      hexDigit (digitValue (UInt8.ofNat n)) = tolower (UInt8.ofNat n) := by decide +kernel
  have hc := hall c.toNat c.toNat_lt
  rw [UInt8.ofNat_toNat] at hc
  exact hc h

theorem hexDigit_isxdigit : ∀ d < 16, isxdigit (hexDigit d) = true := by decide

theorem numeral_isxdigit {width n : ℕ} {c : UInt8} (h : c ∈ numeral width n) :
    isxdigit c = true := by
  induction width generalizing n with
  | zero => exact absurd h List.not_mem_nil
  | succ width ih =>
    rcases List.mem_append.mp h with hfront | hlast
    · exact ih hfront
    · rw [List.mem_singleton.mp hlast]
      exact hexDigit_isxdigit _ (Nat.mod_lt n (by decide))

theorem numeral_value {s : Bytes} (h : ∀ c ∈ s, isxdigit c = true) :
    value s < 16 ^ s.length ∧ numeral s.length (value s) = s.map tolower := by
  induction s using List.reverseRecOn with
  | nil => exact ⟨by decide, rfl⟩
  | append_singleton s c ih =>
    obtain ⟨hlt, hsame⟩ := ih fun x hx => h x (List.mem_append_left [c] hx)
    obtain ⟨hdigit, hchar⟩ :=
      digit_of_isxdigit (h c (List.mem_append_right s (List.mem_singleton_self c)))
    rw [value_snoc, List.length_append, List.length_singleton, Nat.pow_succ]
    refine ⟨by omega, ?_⟩
    have hquot : (16 * value s + digitValue c) / 16 = value s := by omega
    have hrem : (16 * value s + digitValue c) % 16 = digitValue c := by omega
    rw [numeral, hquot, hrem, hsame, hchar, List.map_append, List.map_singleton]

/-! ## Numerals one behind the other -/

def numerals (widths ns : List ℕ) : Bytes := (List.zipWith numeral widths ns).flatten

def splits : List ℕ → Bytes → List ℕ
  | [], _ => []
  | width :: widths, s => value (s.take width) :: splits widths (s.drop width)

def Fit (widths ns : List ℕ) : Prop := List.Forall₂ (fun width n => n < 16 ^ width) widths ns

theorem splits_numerals {widths ns : List ℕ} (h : Fit widths ns) :
    splits widths (numerals widths ns) = ns := by
  induction h with
  | nil => rfl
  | @cons width n widths ns hn _ ih =>
    have hlen := numeral_length width n
    have hcons : numerals (width :: widths) (n :: ns) = numeral width n ++ numerals widths ns := rfl
    rw [splits, hcons, List.take_append_of_le_length (Nat.le_of_eq hlen.symm),
      List.take_of_length_le (Nat.le_of_eq hlen), List.drop_left' hlen, ih, value_numeral,
      Nat.mod_eq_of_lt hn]

theorem numerals_splits {widths : List ℕ} {s : Bytes} (hlen : s.length = widths.sum)
    (h : ∀ c ∈ s, isxdigit c = true) :
    Fit widths (splits widths s) ∧ numerals widths (splits widths s) = s.map tolower := by
  induction widths generalizing s with
  | nil =>
    obtain rfl := List.length_eq_zero_iff.mp hlen
    exact ⟨List.Forall₂.nil, rfl⟩
  | cons width widths ih =>
    rw [List.sum_cons] at hlen
    have hfirst : (s.take width).length = width := by rw [List.length_take]; omega
    have hrest : (s.drop width).length = widths.sum := by rw [List.length_drop]; omega
    obtain ⟨hlt, hsame⟩ := numeral_value fun c hc => h c (List.mem_of_mem_take hc)
    rw [hfirst] at hlt hsame
    obtain ⟨hfit, hbehind⟩ := ih hrest fun c hc => h c (List.mem_of_mem_drop hc)
    refine ⟨List.Forall₂.cons hlt hfit, ?_⟩
    have hcons : numerals (width :: widths) (splits (width :: widths) s) =
        numeral width (value (s.take width)) ++ numerals widths (splits widths (s.drop width)) :=
      rfl
    rw [hcons, hsame, hbehind, ← List.map_append, List.take_append_drop]

theorem numerals_isxdigit {widths ns : List ℕ} {c : UInt8} (h : c ∈ numerals widths ns) :
    isxdigit c = true := by
  induction widths generalizing ns with
  | nil => exact absurd h List.not_mem_nil
  | cons width widths ih =>
    cases ns with
    | nil => exact absurd h List.not_mem_nil
    | cons n ns =>
      rcases List.mem_append.mp h with hfirst | hrest
      · exact numeral_isxdigit hfirst
      · exact ih hrest

end HexNumerals
