import Mathlib.Algebra.Group.Int.Defs
import Mathlib.Algebra.Group.Nat.Defs
import Mathlib.Data.List.Basic
import Mathlib.Data.List.TakeWhile

/-! # Byte memory with undefined behaviour made explicit

A region of memory is the list of its bytes and a pointer into it is an index. Leaving the
region, following NULL, using a value that was never set and overflowing a signed integer
are faults, so a run that returns a value met none of them. Sizes are reduced modulo 2^64. -/
namespace CMemory

abbrev Bytes := List UInt8

inductive Fault where
  | outOfBounds
  | nullPointer
  | uninitialised
  | signedOverflow
  deriving DecidableEq, Repr

abbrev C (α : Type) := Except Fault α

/-- What ends a program early: undefined behaviour, or a call of `abort` after its message. -/
inductive Halt where
  | fault (e : Fault)
  | abort (message : Bytes)
  deriving DecidableEq, Repr

abbrev Proc (α : Type) := Except Halt α

def lift {α : Type} (x : C α) : Proc α := x.mapError .fault

@[simp] theorem lift_ok {α : Type} (a : α) : lift (.ok a : C α) = .ok a := rfl

@[simp] theorem lift_error {α : Type} (e : Fault) :
    lift (.error e : C α) = .error (.fault e) := rfl

theorem lift_eq_ok {α : Type} {x : C α} {a : α} : lift x = .ok a ↔ x = .ok a := by
  cases x <;> simp

/-- A sequence of steps that returns a value met no fault in any of them. -/
theorem bind_ok {ε α β : Type} {x : Except ε α} {f : α → Except ε β} {b : β}
    (h : (x >>= f) = .ok b) : ∃ a, x = .ok a ∧ f a = .ok b := by
  cases x with
  | error e => cases h
  | ok a => exact ⟨a, rfl, h⟩

theorem bind_error {α β : Type} {x : C α} {f : α → C β} {e : Fault} (h : (x >>= f) = .error e) :
    x = .error e ∨ ∃ a, x = .ok a ∧ f a = .error e := by
  cases x with
  | error e' => exact Or.inl (congrArg Except.error (Except.error.inj h))
  | ok a => exact Or.inr ⟨a, rfl, h⟩

theorem ok_of_isOk {ε α : Type} {x : Except ε α} (h : x.isOk) : ∃ a, x = .ok a := by
  cases x with
  | error e => cases h
  | ok a => exact ⟨a, rfl⟩

def bytes (s : String) : Bytes := s.toUTF8.data.toList

def size_t (n : ℕ) : ℕ := n % 2 ^ 64

theorem size_t_of_lt {n : ℕ} (h : n < 2 ^ 64) : size_t n = n := Nat.mod_eq_of_lt h

def long_long (n : ℤ) : C ℤ :=
  if -2 ^ 63 ≤ n ∧ n < 2 ^ 63 then .ok n else .error .signedOverflow

theorem long_long_ok {n m : ℤ} (h : long_long n = .ok m) : m = n := by
  unfold long_long at h
  split at h
  · exact (Except.ok.inj h).symm
  · cases h

def load (d : Bytes) (i : ℕ) : C UInt8 :=
  match d[i]? with
  | some v => .ok v
  | none => .error .outOfBounds

theorem load_of_get {d : Bytes} {i : ℕ} {v : UInt8} (h : d[i]? = some v) : load d i = .ok v := by
  simp [load, h]

theorem load_at (left : Bytes) (c : UInt8) (right : Bytes) :
    load (left ++ c :: right) left.length = .ok c := by
  apply load_of_get
  simp

theorem get_of_load {d : Bytes} {i : ℕ} {v : UInt8} (h : load d i = .ok v) : d[i]? = some v := by
  unfold load at h
  split at h
  · next w hget => rw [hget, Except.ok.inj h]
  · cases h

def store (d : Bytes) (i : ℕ) (v : UInt8) : C Bytes :=
  if i < d.length then .ok (d.set i v) else .error .outOfBounds

theorem store_ok {d d' : Bytes} {i : ℕ} {v : UInt8} (h : store d i v = .ok d') :
    i < d.length ∧ d' = d.take i ++ v :: d.drop (i + 1) := by
  unfold store at h
  split at h
  · next hi => exact ⟨hi, by rw [← Except.ok.inj h, List.set_eq_take_append_cons_drop, if_pos hi]⟩
  · cases h

theorem store_at (left : Bytes) (c : UInt8) (right : Bytes) (v : UInt8) :
    store (left ++ c :: right) left.length v = .ok (left ++ v :: right) := by
  rw [store, if_pos (by simp), List.set_append_right _ _ (Nat.le_refl _), Nat.sub_self,
    List.set_cons_zero]

def calloc (n : ℕ) : Bytes := List.replicate n 0

/-- Consecutive writes from the first byte of a buffer on. -/
def fill (buf out : Bytes) : C Bytes :=
  if out.length ≤ buf.length then .ok (out ++ buf.drop out.length) else .error .outOfBounds

def sprintf (buf text : Bytes) : C Bytes := fill buf (text ++ [0])

/-- What `snprintf` leaves of a text in front of its NUL. -/
def snprintf (size : ℕ) (text : Bytes) : Bytes := text.take (size - 1)

/-- A string as `%s` prints it. For NULL it is the text of the platform, if it has one. -/
def format_string (null_text str : Option Bytes) : C Bytes :=
  match str.or null_text with
  | some text => .ok text
  | none => .error .nullPointer

theorem format_string_ok {null_text str : Option Bytes} {text : Bytes} :
    format_string null_text str = .ok text ↔ str.or null_text = some text := by
  unfold format_string
  cases str.or null_text with
  | none =>
    constructor
    · intro h
      cases h
    · intro h
      cases h
  | some t =>
    constructor
    · exact fun h => congrArg some (Except.ok.inj h)
    · exact fun h => congrArg Except.ok (Option.some.inj h)

theorem fill_ok {buf out d : Bytes} (h : fill buf out = .ok d) :
    out.length ≤ buf.length ∧ d = out ++ buf.drop out.length := by
  unfold fill at h
  split at h
  · exact ⟨by assumption, (Except.ok.inj h).symm⟩
  · cases h

theorem fill_of_le {buf out : Bytes} (h : out.length ≤ buf.length) :
    fill buf out = .ok (out ++ buf.drop out.length) := if_pos h

/-- The number of bytes in front of the first one that stops the scan. -/
def scan (stop : UInt8 → Bool) : Bytes → C ℕ
  | [] => .error .outOfBounds
  | x :: xs => if stop x then .ok 0 else (scan stop xs).map (· + 1)

theorem scan_hit {stop : UInt8 → Bool} {left : Bytes} {z : UInt8} (right : Bytes)
    (hl : ∀ x ∈ left, stop x = false) (hz : stop z = true) :
    scan stop (left ++ z :: right) = .ok left.length := by
  induction left with
  | nil => simp [scan, hz]
  | cons x xs ih =>
    have hx := hl x List.mem_cons_self
    have hs := ih fun y hy => hl y (List.mem_cons_of_mem x hy)
    simp [scan, hx, hs, Except.map]

theorem scan_over {stop : UInt8 → Bool} {d : Bytes} (h : ∀ x ∈ d, stop x = false) :
    scan stop d = .error .outOfBounds := by
  induction d with
  | nil => rfl
  | cons x xs ih =>
    have hx := h x List.mem_cons_self
    have hs := ih fun y hy => h y (List.mem_cons_of_mem x hy)
    simp [scan, hx, hs, Except.map]

/-- A scan either meets a stopping byte inside the region or leaves the region. -/
theorem scan_cases (stop : UInt8 → Bool) (d : Bytes) :
    (∃ left z right, d = left ++ z :: right ∧ (∀ x ∈ left, stop x = false) ∧ stop z = true) ∨
    (∀ x ∈ d, stop x = false) := by
  induction d with
  | nil => exact Or.inr fun x hx => absurd hx List.not_mem_nil
  | cons x xs ih =>
    cases hx : stop x with
    | true =>
      exact Or.inl ⟨[], x, xs, rfl, fun y hy => absurd hy List.not_mem_nil, hx⟩
    | false =>
      rcases ih with ⟨left, z, right, rfl, hl, hz⟩ | hn
      · refine Or.inl ⟨x :: left, z, right, rfl, ?_, hz⟩
        intro y hy
        rcases List.mem_cons.mp hy with rfl | hy
        · exact hx
        · exact hl y hy
      · apply Or.inr
        intro y hy
        rcases List.mem_cons.mp hy with rfl | hy
        · exact hx
        · exact hn y hy

theorem scan_ok {stop : UInt8 → Bool} {d : Bytes} {n : ℕ} (h : scan stop d = .ok n) :
    ∃ left z right, d = left ++ z :: right ∧ left.length = n ∧
      (∀ x ∈ left, stop x = false) ∧ stop z = true := by
  rcases scan_cases stop d with ⟨left, z, right, rfl, hl, hz⟩ | hn
  · rw [scan_hit right hl hz] at h
    exact ⟨left, z, right, rfl, Except.ok.inj h, hl, hz⟩
  · rw [scan_over hn] at h
    cases h

def strlen (d : Bytes) (i : ℕ) : C ℕ := scan (fun x => x = 0) (d.drop i)

/-- The characters of the C string that starts at an index. -/
def cstr (d : Bytes) (i : ℕ) : C Bytes := do
  let n ← strlen d i
  return (d.drop i).take n

theorem cstr_ok {d t : Bytes} {i : ℕ} (h : cstr d i = .ok t) :
    ∃ right, d.drop i = t ++ 0 :: right ∧ 0 ∉ t := by
  unfold cstr strlen at h
  rcases hs : scan (fun x => decide (x = 0)) (d.drop i) with e | n
  · rw [hs] at h
    cases h
  · obtain ⟨left, z, right, hd, rfl, hl, hz⟩ := scan_ok hs
    obtain rfl : z = 0 := by simpa using hz
    rw [hs] at h
    obtain rfl : left = t := by simpa [hd, bind, Except.bind, pure, Except.pure] using h
    exact ⟨right, hd, fun h0 => by simpa using hl 0 h0⟩

/-- The difference of the first bytes that differ, among `n` and up to a NUL. -/
def strncmp : ℕ → Bytes → Bytes → C ℤ
  | 0, _, _ => .ok 0
  | n + 1, x :: s₁, y :: s₂ =>
    if x ≠ y then .ok ((x.toNat : ℤ) - y.toNat) else if x = 0 then .ok 0 else strncmp n s₁ s₂
  | _ + 1, _, _ => .error .outOfBounds

theorem strncmp_differ {x y : UInt8} (n : ℕ) (s₁ s₂ : Bytes) (h : x ≠ y) :
    ∃ diff, strncmp (n + 1) (x :: s₁) (y :: s₂) = .ok diff ∧ diff ≠ 0 := by
  refine ⟨(x.toNat : ℤ) - y.toNat, if_pos h, fun hdiff => h (UInt8.toNat_inj.mp ?_)⟩
  omega

theorem strncmp_agree {x : UInt8} (n : ℕ) (s₁ s₂ : Bytes) (h : x ≠ 0) :
    strncmp (n + 1) (x :: s₁) (x :: s₂) = strncmp n s₁ s₂ := by
  rw [strncmp, if_neg (not_not.mpr rfl), if_neg h]

/-- What a C function sees of bytes that a NUL follows. -/
def c_string (s : Bytes) : Bytes := s.takeWhile (· ≠ 0)

theorem c_string_append_zero (x y : Bytes) : c_string (x ++ 0 :: y) = c_string x := by
  induction x with
  | nil => simp [c_string]
  | cons a x ih =>
    by_cases ha : a = 0
    · simp [c_string, ha]
    · simpa [c_string, ha] using ih

/-- What a function that stops at the first NUL sees of a region that ends in one. -/
theorem c_string_split (s : Bytes) : ∃ right, s ++ [0] = c_string s ++ 0 :: right := by
  by_cases h : 0 ∈ s
  · obtain ⟨x, y, rfl, hx⟩ := List.eq_append_cons_of_mem h
    refine ⟨y ++ [0], ?_⟩
    rw [c_string_append_zero, List.append_assoc, List.cons_append]
    congr 1
    exact (List.takeWhile_eq_self_iff.mpr fun a ha => by
      simpa using fun h0 : a = 0 => hx (h0 ▸ ha)).symm
  · refine ⟨[], ?_⟩
    congr 1
    exact (List.takeWhile_eq_self_iff.mpr fun a ha => by
      simpa using fun h0 : a = 0 => h (h0 ▸ ha)).symm

theorem c_string_append_zeros (x : Bytes) (k : ℕ) :
    c_string (x ++ List.replicate k 0) = c_string x := by
  cases k with
  | zero => simp
  | succ k => rw [List.replicate_succ, c_string_append_zero]

theorem c_string_of_clean {s : Bytes} (h : 0 ∉ s) : c_string s = s := by
  apply List.takeWhile_eq_self_iff.mpr
  intro x hx
  simpa using fun h0 : x = 0 => h (h0 ▸ hx)

theorem c_string_region {d : Bytes} (h : 0 ∈ d) : ∃ right, d = c_string d ++ 0 :: right := by
  obtain ⟨x, y, rfl, hx⟩ := List.eq_append_cons_of_mem h
  refine ⟨y, ?_⟩
  rw [c_string_append_zero, c_string_of_clean hx]

theorem c_string_clean (s : Bytes) : 0 ∉ c_string s := by
  intro h
  simpa using List.mem_takeWhile_imp h

theorem cstr_eq_c_string {d t : Bytes} (h : cstr d 0 = .ok t) : t = c_string d := by
  obtain ⟨right, hd, h0⟩ := cstr_ok h
  rw [List.drop_zero] at hd
  rw [hd, c_string_append_zero, c_string_of_clean h0]

theorem cstr_drop (d : Bytes) (i : ℕ) : cstr d i = cstr (d.drop i) 0 := by
  simp [cstr, strlen]

/-- `strchr` reads up to the wanted byte or the terminating NUL, whichever comes first. -/
def strchr (d : Bytes) (i : ℕ) (c : UInt8) : C (Option ℕ) := do
  let n ← scan (fun x => x = c || x = 0) (d.drop i)
  return if d[i + n]? = some c then some (i + n) else none

theorem strlen_at {left text : Bytes} (right : Bytes) (h : 0 ∉ text) :
    strlen (left ++ (text ++ 0 :: right)) left.length = .ok text.length := by
  unfold strlen
  rw [List.drop_left]
  refine scan_hit right ?_ (by decide)
  rintro x hx
  simpa using fun h0 : x = 0 => h (h0 ▸ hx)

theorem cstr_at {left text : Bytes} (right : Bytes) (h : 0 ∉ text) :
    cstr (left ++ (text ++ 0 :: right)) left.length = .ok text := by
  simp [cstr, strlen_at right h, Except.bind, bind, pure, Except.pure]

theorem cstr_start {text : Bytes} (right : Bytes) (h : 0 ∉ text) :
    cstr (text ++ 0 :: right) 0 = .ok text := by
  simpa using @cstr_at [] text right h

theorem cstr_of_mem {s : Bytes} (t : Bytes) (h : 0 ∈ s) : cstr (s ++ t) 0 = .ok (c_string s) := by
  obtain ⟨x, y, rfl, hx⟩ := List.eq_append_cons_of_mem h
  rw [List.append_assoc, List.cons_append, cstr_start _ hx, c_string_append_zero,
    c_string_of_clean hx]

theorem cstr_of_clean {s : Bytes} (h : 0 ∉ s) : cstr s 0 = .error .outOfBounds := by
  have hscan : scan (fun x => decide (x = 0)) s = .error .outOfBounds :=
    scan_over fun x hx => by simpa using fun h0 : x = 0 => h (h0 ▸ hx)
  simp [cstr, strlen, hscan, bind, Except.bind]

private theorem strchr_clean {text : Bytes} {c : UInt8} (hc : c ∉ text) (h0 : 0 ∉ text) :
    ∀ x ∈ text, (decide (x = c) || decide (x = 0)) = false := by
  intro x hx
  have h1 : x ≠ c := fun h => hc (h ▸ hx)
  have h2 : x ≠ 0 := fun h => h0 (h ▸ hx)
  simp [h1, h2]

theorem strchr_found {left text : Bytes} {c : UInt8} (right : Bytes) (hc : c ∉ text)
    (h0 : 0 ∉ text) :
    strchr (left ++ (text ++ c :: right)) left.length c =
      .ok (some (left.length + text.length)) := by
  unfold strchr
  rw [List.drop_left, scan_hit right (strchr_clean hc h0) (by simp)]
  simp [bind, Except.bind, pure, Except.pure]

theorem strchr_ended {left text : Bytes} {c : UInt8} (right : Bytes) (hc : c ∉ text)
    (h0 : 0 ∉ text) (hne : c ≠ 0) :
    strchr (left ++ (text ++ 0 :: right)) left.length c = .ok none := by
  unfold strchr
  rw [List.drop_left, scan_hit right (strchr_clean hc h0) (by simp)]
  simp [bind, Except.bind, pure, Except.pure, hne.symm]

theorem strchr_over {left text : Bytes} {c : UInt8} (hc : c ∉ text) (h0 : 0 ∉ text) :
    strchr (left ++ text) left.length c = .error .outOfBounds := by
  unfold strchr
  rw [List.drop_left, scan_over (strchr_clean hc h0)]
  rfl

/-- Where a search for a byte can end: at the byte, at a NUL, or outside the region. -/
theorem strchr_cases (left rest : Bytes) {c : UInt8} (hne : c ≠ 0) :
    (∃ text right, rest = text ++ c :: right ∧ c ∉ text ∧ 0 ∉ text ∧
      strchr (left ++ rest) left.length c = .ok (some (left.length + text.length))) ∨
    (∃ text right, rest = text ++ 0 :: right ∧ c ∉ text ∧ 0 ∉ text ∧
      strchr (left ++ rest) left.length c = .ok none) ∨
    (c ∉ rest ∧ 0 ∉ rest ∧ strchr (left ++ rest) left.length c = .error .outOfBounds) := by
  have clean : ∀ text : Bytes, (∀ x ∈ text, (decide (x = c) || decide (x = 0)) = false) →
      c ∉ text ∧ 0 ∉ text := by
    intro text ht
    refine ⟨fun h => ?_, fun h => ?_⟩
    · simpa using ht c h
    · simpa using ht 0 h
  rcases scan_cases (fun x => x = c || x = 0) rest with ⟨text, z, right, rfl, ht, hz⟩ | hn
  · obtain ⟨hc, h0⟩ := clean text ht
    by_cases hzc : z = c
    · subst hzc
      exact Or.inl ⟨text, right, rfl, hc, h0, strchr_found right hc h0⟩
    · obtain rfl : z = 0 := by simpa [hzc] using hz
      exact Or.inr (Or.inl ⟨text, right, rfl, hc, h0, strchr_ended right hc h0 hne⟩)
  · obtain ⟨hc, h0⟩ := clean rest hn
    exact Or.inr (Or.inr ⟨hc, h0, strchr_over hc h0⟩)

end CMemory
