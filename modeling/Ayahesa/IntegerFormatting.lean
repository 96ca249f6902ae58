import Ayahesa.DecimalText

/-! # Integers as text

`aya_itoa` writes the digits of an `int` into a static buffer, from its end to the front. A
negative number is never negated: its remainders are negative and are subtracted. -/
namespace IntegerFormatting

open CMemory DecimalText

/-- An `int` result; a value outside the type is undefined behaviour. -/
def int (n : ℤ) : C ℤ := if -2 ^ 31 ≤ n ∧ n < 2 ^ 31 then .ok n else .error .signedOverflow

def char (n : ℤ) : UInt8 := (n % 256).toNat.toUInt8

/-- `*--p = n`; a pointer below the start of the buffer is undefined behaviour. -/
def push (buf : Bytes) (n : ℤ) : ℕ → C (Bytes × ℕ)
  | 0 => .error .outOfBounds
  | p + 1 => do
    let buf ← store buf p (char n)
    return (buf, p)

/-- The loop for one sign; `digit` is what it makes of a remainder. Quotient and remainder are
those of C, and every pass moves the pointer. -/
def digit_loop (digit : ℤ → ℤ) : ℕ → Bytes → ℤ → C (Bytes × ℕ)
  | 0, _, _ => .error .outOfBounds
  | p + 1, buf, i => do
    let remainder ← int (i.tmod 10)
    let n ← int (digit remainder)
    let (buf, p') ← push buf n (p + 1)
    let i ← int (i.tdiv 10)
    if i ≠ 0 then digit_loop digit p buf i else return (buf, p')

/-- The buffer and the pointer that is returned; `p` starts at the terminating NUL. -/
def aya_itoa (buf : Bytes) (i : ℤ) : C (Bytes × ℕ) :=
  let p := 19 + 1
  if i ≥ 0 then digit_loop (fun remainder => 48 + remainder) p buf i
  else do
    let (buf, p) ← digit_loop (fun remainder => 48 - remainder) p buf i
    push buf 45 p

/-- What earlier calls leave of the static buffer: its size and the NUL at its end. -/
structure StaticBuf where
  data : Bytes
  size : data.length = 19 + 2
  closed : data[20]? = some 0

def itoa_string (buf : StaticBuf) (i : ℤ) : C Bytes := do
  let (data, p) ← aya_itoa buf.data i
  cstr data p

def StaticBuf.zero : StaticBuf := ⟨calloc (19 + 2), rfl, rfl⟩

theorem int_ok {n : ℤ} (h : -2 ^ 31 ≤ n ∧ n < 2 ^ 31) : int n = .ok n := if_pos h

theorem char_digit {d : ℕ} (h : d < 10) : char (48 + d) = digit d := by
  have hmod : ((48 + d : ℤ) % 256).toNat = 48 + d := by omega
  rw [char, hmod, digit]

theorem push_at (front : Bytes) (x : UInt8) (behind : Bytes) (n : ℤ) :
    push (front ++ x :: behind) n (front ++ [x]).length = .ok (front ++ char n :: behind,
      front.length) := by
  rw [List.length_append, List.length_singleton, push, store_at]
  rfl

/-- The two signs that the magnitude of a number can be taken with. -/
def Sign (σ : ℤ) : Prop := σ = 1 ∨ σ = -1

section Loop

variable {σ : ℤ} {digit : ℤ → ℤ} {n : ℕ}

theorem sign_tdiv (hσ : Sign σ) (n : ℕ) : (σ * n).tdiv 10 = σ * (n / 10 : ℕ) := by
  have hpos : (n : ℤ).tdiv 10 = (n / 10 : ℕ) := rfl
  rcases hσ with rfl | rfl
  · rw [Int.one_mul, Int.one_mul, hpos]
  · rw [Int.neg_one_mul, Int.neg_one_mul, Int.neg_tdiv, hpos]

theorem sign_tmod (hσ : Sign σ) (n : ℕ) : (σ * n).tmod 10 = σ * (n % 10 : ℕ) := by
  have hpos : (n : ℤ).tmod 10 = (n % 10 : ℕ) := rfl
  rcases hσ with rfl | rfl
  · rw [Int.one_mul, Int.one_mul, hpos]
  · rw [Int.neg_one_mul, Int.neg_one_mul, Int.neg_tmod, hpos]

theorem sign_digit (hσ : Sign σ) (hdigit : ∀ r, digit r = 48 + σ * r) (n : ℕ) :
    digit ((σ * n).tmod 10) = 48 + (n % 10 : ℕ) := by
  rw [sign_tmod hσ, hdigit, ← Int.mul_assoc]
  rcases hσ with rfl | rfl
  · rw [Int.one_mul, Int.one_mul]
  · rw [Int.neg_mul_neg, Int.one_mul, Int.one_mul]

theorem digit_loop_step (hσ : Sign σ) (hdigit : ∀ r, digit r = 48 + σ * r)
    (hrange : -2 ^ 31 ≤ σ * n ∧ σ * n < 2 ^ 31) (front : Bytes) (x : UInt8) (behind : Bytes) :
    digit_loop digit (front ++ [x]).length (front ++ x :: behind) (σ * n) =
      if n / 10 = 0 then .ok (front ++ DecimalText.digit (n % 10) :: behind, front.length)
      else digit_loop digit front.length (front ++ DecimalText.digit (n % 10) :: behind)
        (σ * (n / 10 : ℕ)) := by
  have hlast : n % 10 < 10 := Nat.mod_lt n (by decide)
  have hremainder : int ((σ * n).tmod 10) = .ok ((σ * n).tmod 10) := by
    apply int_ok
    rw [sign_tmod hσ]
    rcases hσ with rfl | rfl <;> omega
  have hchar : int (digit ((σ * n).tmod 10)) = .ok (48 + (n % 10 : ℕ)) := by
    rw [sign_digit hσ hdigit]
    exact int_ok (by omega)
  have hquotient : int ((σ * n).tdiv 10) = .ok (σ * (n / 10 : ℕ)) := by
    rw [sign_tdiv hσ]
    apply int_ok
    rcases hσ with rfl | rfl <;> omega
  have hzero : σ * (n / 10 : ℕ) ≠ 0 ↔ ¬n / 10 = 0 := by
    rcases hσ with rfl | rfl <;> omega
  have hpush := push_at front x behind (48 + (n % 10 : ℕ))
  rw [char_digit hlast] at hpush
  rw [List.length_append, List.length_singleton] at hpush ⊢
  simp only [digit_loop, hremainder, hchar, hpush, hquotient, bind, Except.bind, hzero]
  by_cases hend : n / 10 = 0
  · simp only [hend, not_true, if_false, if_true]
    rfl
  · simp only [hend, not_false_iff, if_true, if_false]

/-- The digits take the place of as many bytes in front of the pointer. -/
theorem digit_loop_eq (hσ : Sign σ) (hdigit : ∀ r, digit r = 48 + σ * r)
    (hrange : -2 ^ 31 ≤ σ * n ∧ σ * n < 2 ^ 31) (front behind : Bytes) {old : Bytes}
    (hold : old.length = (digits n).length) :
    digit_loop digit (front ++ old).length (front ++ (old ++ behind)) (σ * n) =
      .ok (front ++ (digits n ++ behind), front.length) := by
  induction n using Nat.strong_induction_on generalizing old behind with
  | h n ih =>
    obtain ⟨rest, x, rfl⟩ : ∃ rest x, old = rest ++ [x] := by
      refine ⟨_, _, (List.dropLast_append_getLast (l := old) ?_).symm⟩
      intro hnil
      exact digits_ne_nil n (List.eq_nil_of_length_eq_zero (by rw [← hold, hnil]; rfl))
    have hstep := digit_loop_step hσ hdigit hrange (front ++ rest) x behind
    simp only [List.append_assoc, List.singleton_append] at hstep ⊢
    rw [hstep]
    by_cases hn : n < 10
    · rw [digits_of_lt hn, List.length_append] at hold
      obtain rfl : rest = [] := List.eq_nil_of_length_eq_zero (Nat.succ.inj hold)
      rw [if_pos (Nat.div_eq_of_lt hn), Nat.mod_eq_of_lt hn, digits_of_lt hn, List.append_nil]
      rfl
    · have hge : 10 ≤ n := Nat.le_of_not_lt hn
      rw [digits_of_ge hge, List.length_append, List.length_append] at hold
      have hnext : -2 ^ 31 ≤ σ * (n / 10 : ℕ) ∧ σ * (n / 10 : ℕ) < 2 ^ 31 := by
        rcases hσ with rfl | rfl <;> omega
      rw [if_neg (by omega), ih (n / 10) (by omega) hnext _ (Nat.succ.inj hold), digits_of_ge hge,
        List.append_assoc]
      rfl

end Loop

theorem StaticBuf.split (buf : StaticBuf) {k : ℕ} (hk : k ≤ 20) :
    ∃ front old, buf.data = front ++ (old ++ [0]) ∧ old.length = k ∧
      (front ++ old).length = 20 := by
  have hlen : (buf.data.take 20).length = 20 := by rw [List.length_take, buf.size]; rfl
  have hdata : buf.data = buf.data.take 20 ++ [0] := by
    have hget := List.getElem?_eq_some_iff.mp buf.closed
    obtain ⟨hlt, hlast⟩ := hget
    have hdrop := List.drop_eq_getElem_cons hlt
    rw [hlast, List.drop_eq_nil_of_le (Nat.le_of_eq buf.size)] at hdrop
    rw [← hdrop, List.take_append_drop]
  refine ⟨(buf.data.take 20).take (20 - k), (buf.data.take 20).drop (20 - k), ?_, ?_, ?_⟩
  · rw [← List.append_assoc, List.take_append_drop]
    exact hdata
  · rw [List.length_drop, hlen]
    omega
  · rw [List.take_append_drop, hlen]

def StaticBuf.holding (front text : Bytes) (h : front.length + text.length = 20) : StaticBuf where
  data := front ++ (text ++ [0])
  size := by
    simp only [List.length_append, List.length_singleton]
    omega
  closed := by
    rw [← List.append_assoc, List.getElem?_append_right (by simp [h]), List.length_append, h]
    rfl

theorem aya_itoa_text (buf : StaticBuf) {i : ℤ} (hi : -2 ^ 31 ≤ i ∧ i < 2 ^ 31) :
    ∃ (buf' : StaticBuf) (p : ℕ), aya_itoa buf.data i = .ok (buf'.data, p) ∧
      cstr buf'.data p = .ok (decimal i) := by
  have hdigits : (digits i.natAbs).length ≤ 10 := digits_length (by decide) (by omega)
  by_cases hneg : i < 0
  · obtain ⟨front, old, hdata, hold, hlen⟩ :=
      buf.split (show (digits i.natAbs).length + 1 ≤ 20 by omega)
    obtain ⟨x, old, rfl⟩ := List.exists_cons_of_length_pos (l := old) (by omega)
    have hold : old.length = (digits i.natAbs).length := Nat.succ.inj hold
    have hi' : -1 * (i.natAbs : ℤ) = i := by omega
    have hloop := @digit_loop_eq (-1) (fun r => 48 - r) i.natAbs (Or.inr rfl)
      (fun r => by omega) (by omega) (front ++ [x]) [0] old hold
    have hsign := push_at front x (digits i.natAbs ++ [0]) 45
    have hfull : front.length + (45 :: digits i.natAbs).length = 20 := by
      simp only [List.length_append, List.length_cons] at hlen ⊢
      omega
    simp only [List.append_assoc, List.singleton_append] at hloop hsign
    rw [hi', hlen] at hloop
    refine ⟨.holding front (45 :: digits i.natAbs) hfull, front.length, ?_, ?_⟩
    · simp only [aya_itoa, if_neg (Int.not_le.mpr hneg), hdata, List.cons_append, hloop, hsign,
        bind, Except.bind]
      rfl
    · have hclean := decimal_clean i
      rw [decimal, if_pos hneg] at hclean ⊢
      exact cstr_at [] hclean
  · obtain ⟨front, old, hdata, hold, hlen⟩ :=
      buf.split (show (digits i.natAbs).length ≤ 20 by omega)
    have hi' : 1 * (i.natAbs : ℤ) = i := by omega
    have hloop := @digit_loop_eq 1 (fun r => 48 + r) i.natAbs (Or.inl rfl)
      (fun r => by omega) (by omega) front [0] old hold
    have hfull : front.length + (digits i.natAbs).length = 20 := by
      rw [List.length_append, hold] at hlen
      exact hlen
    rw [hi', hlen] at hloop
    refine ⟨.holding front (digits i.natAbs) hfull, front.length, ?_, ?_⟩
    · simp only [aya_itoa, if_pos (Int.not_lt.mp hneg), hdata, hloop]
      rfl
    · have hclean := decimal_clean i
      rw [decimal, if_neg hneg] at hclean ⊢
      exact cstr_at [] hclean

theorem itoa_string_eq (buf : StaticBuf) {i : ℤ} (h : -2 ^ 31 ≤ i ∧ i < 2 ^ 31) :
    itoa_string buf i = .ok (decimal i) := by
  obtain ⟨buf', p, hcall, htext⟩ := aya_itoa_text buf h
  simp only [itoa_string, hcall, bind, Except.bind]
  exact htext

/-- For every `int`, the smallest one included, the call stays inside the buffer and the type; it
returns the canonical decimal text of the number, from which the number is read back. -/
theorem aya_itoa_decimal (buf : StaticBuf) (i : Int32) :
    ∃ (buf' : StaticBuf) (p : ℕ) (s : Bytes), aya_itoa buf.data i.toInt = .ok (buf'.data, p) ∧
      cstr buf'.data p = .ok s ∧ s = decimal i.toInt ∧ Canonical s ∧
      (s.head? = some 45 ↔ i.toInt < 0) ∧ read_decimal s = some i.toInt := by
  obtain ⟨buf', p, hcall, htext⟩ := aya_itoa_text buf ⟨Int32.le_toInt i, Int32.toInt_lt i⟩
  exact ⟨buf', p, decimal i.toInt, hcall, htext, rfl, decimal_canonical i.toInt,
    decimal_head_iff i.toInt, read_decimal_decimal i.toInt⟩

example : (aya_itoa StaticBuf.zero.data (-2147483648)).map Prod.snd = .ok 9 := by decide

end IntegerFormatting
