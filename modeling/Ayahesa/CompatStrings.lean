import Mathlib.Data.List.DropRight
import Mathlib.Tactic.Common
import Ayahesa.CMemory

/-! # String helpers of `compat.c`

`rstrip` overwrites trailing white space with NULs in place and `lskip` moves the pointer
over leading white space; `trim` is the macro that applies both. -/
namespace CompatStrings

open CMemory

/-- `isspace` in the C locale. -/
def isspace (c : UInt8) : Bool := c = 32 || (9 ≤ c && c ≤ 13)

def tolower (c : UInt8) : UInt8 := if 65 ≤ c ∧ c ≤ 90 then c + 32 else c

def strtolower (str : Bytes) : Bytes := str.map tolower

/-- The loop of `rstrip`; the last argument is the distance of `p` from `s`. -/
def rstripLoop (d : Bytes) (s : ℕ) : ℕ → Bytes
  | 0 => d
  | n + 1 => if isspace (d.getD (s + n) 0) then rstripLoop (d.set (s + n) 0) s n else d

def rstrip (d : Bytes) (s : ℕ) : C Bytes := do
  let n ← strlen d s
  return rstripLoop d s n

def lskip (d : Bytes) (s : ℕ) : C ℕ := do
  let n ← scan (fun x => x = 0 || !isspace x) (d.drop s)
  return s + n

def trim (d : Bytes) (s : ℕ) : C (Bytes × ℕ) := do
  let d ← rstrip d s
  let s ← lskip d s
  return (d, s)

/-- The text that `rstrip` leaves in front of the NULs it writes. -/
def stripped (text : Bytes) : Bytes := text.rdropWhile isspace

/-- The number of leading blanks that `lskip` passes after `rstrip`. -/
def leading (text : Bytes) : ℕ := ((stripped text).takeWhile isspace).length

def trimmed (text : Bytes) : Bytes := (stripped text).dropWhile isspace

theorem stripped_length_le (text : Bytes) : (stripped text).length ≤ text.length :=
  (List.rdropWhile_prefix isspace text).length_le

theorem stripped_append_blanks (text : Bytes) :
    ∃ blanks, stripped text ++ blanks = text ∧ ∀ c ∈ blanks, isspace c = true := by
  refine ⟨(text.reverse.takeWhile isspace).reverse, ?_, fun c hc => ?_⟩
  · rw [stripped, List.rdropWhile, ← List.reverse_append, List.takeWhile_append_dropWhile,
      List.reverse_reverse]
  · exact List.mem_takeWhile_imp (List.mem_reverse.mp hc)

theorem stripped_subset {text : Bytes} {x : UInt8} (h : x ∈ stripped text) : x ∈ text :=
  (List.rdropWhile_prefix isspace text).subset h

theorem trimmed_subset {text : Bytes} {x : UInt8} (h : x ∈ trimmed text) : x ∈ text :=
  stripped_subset ((List.dropWhile_suffix isspace).subset h)

theorem stripped_split (text : Bytes) :
    (stripped text).takeWhile isspace ++ trimmed text = stripped text :=
  List.takeWhile_append_dropWhile

theorem leading_add_trimmed (text : Bytes) :
    leading text + (trimmed text).length = (stripped text).length := by
  have h := congrArg List.length (stripped_split text)
  rw [List.length_append] at h
  exact h

theorem leading_le (text : Bytes) : leading text ≤ text.length := by
  have := leading_add_trimmed text
  have := stripped_length_le text
  omega

/-- The region after `rstrip`: the stripped text, then NULs up to the old length. -/
def wiped (text : Bytes) : Bytes :=
  stripped text ++ List.replicate (text.length - (stripped text).length) 0

@[simp] theorem wiped_length (text : Bytes) : (wiped text).length = text.length := by
  have := stripped_length_le text
  simp only [wiped, List.length_append, List.length_replicate]
  omega

private theorem rstripLoop_eq (left text right : Bytes) :
    rstripLoop (left ++ (text ++ right)) left.length text.length =
      left ++ (wiped text ++ right) := by
  induction text using List.reverseRecOn generalizing right with
  | nil => simp [rstripLoop, wiped, stripped]
  | append_singleton init c ih =>
    have hget : (left ++ (init ++ [c] ++ right)).getD (left.length + init.length) 0 = c := by
      simp [List.getD_eq_getElem?_getD]
    simp only [List.length_append, List.length_singleton, rstripLoop, hget]
    cases hc : isspace c with
    | false =>
      simp [wiped, stripped, hc]
    | true =>
      have hset : (left ++ (init ++ [c] ++ right)).set (left.length + init.length) 0 =
          left ++ (init ++ 0 :: right) := by
        simp [List.set_append_right]
      have hle := stripped_length_le init
      rw [if_pos rfl, hset, ih]
      have hstrip : stripped (init ++ [c]) = stripped init := by
        simp [stripped, hc]
      simp only [wiped, hstrip, List.length_append, List.length_singleton, List.append_assoc]
      rw [show init.length + 1 - (stripped init).length =
        (init.length - (stripped init).length) + 1 by omega, List.replicate_succ']
      simp

theorem rstrip_at {left text : Bytes} (right : Bytes) (h : 0 ∉ text) :
    rstrip (left ++ (text ++ 0 :: right)) left.length =
      .ok (left ++ (wiped text ++ 0 :: right)) := by
  simp [rstrip, strlen_at right h, rstripLoop_eq, bind, Except.bind, pure, Except.pure]

theorem wiped_split (text right : Bytes) : ∃ rest,
    wiped text ++ 0 :: right =
      (stripped text).takeWhile isspace ++ (trimmed text ++ 0 :: rest) := by
  refine ⟨(List.replicate (text.length - (stripped text).length) 0 ++ 0 :: right).tail, ?_⟩
  rw [← List.append_assoc, stripped_split, wiped, List.append_assoc]
  congr 1
  cases text.length - (stripped text).length with
  | zero => rfl
  | succ k => rfl

theorem lskip_at {left text : Bytes} (right : Bytes) (h : 0 ∉ text) :
    lskip (left ++ (wiped text ++ 0 :: right)) left.length =
      .ok (left.length + leading text) := by
  obtain ⟨rest, hrest⟩ := wiped_split text right
  obtain ⟨z, more, hz, hsplit⟩ : ∃ z more, (z = 0 ∨ isspace z = false) ∧
      trimmed text ++ 0 :: rest = z :: more := by
    cases ht : trimmed text with
    | nil => exact ⟨0, rest, Or.inl rfl, rfl⟩
    | cons z more =>
      refine ⟨z, more ++ 0 :: rest, Or.inr ?_, rfl⟩
      have hhead := List.head_dropWhile_not isspace (l := stripped text)
        (by rw [show (stripped text).dropWhile isspace = z :: more from ht]; simp)
      simpa [show (stripped text).dropWhile isspace = z :: more from ht] using hhead
  unfold lskip
  rw [List.drop_left, hrest, hsplit, scan_hit more]
  · simp [leading, bind, Except.bind, pure, Except.pure]
  · intro x hx
    have hsp : isspace x = true := List.mem_takeWhile_imp hx
    have hmem : x ∈ text := stripped_subset ((List.takeWhile_prefix isspace).subset hx)
    have hne : x ≠ 0 := fun h0 => h (h0 ▸ hmem)
    simp [hsp, hne]
  · rcases hz with rfl | hz
    · rfl
    · simp [hz]

/-- `trim` on a terminated text: the region keeps its length and the pointer moves over
the leading blanks. -/
theorem trim_at {left text : Bytes} (right : Bytes) (h : 0 ∉ text) :
    trim (left ++ (text ++ 0 :: right)) left.length =
      .ok (left ++ (wiped text ++ 0 :: right), left.length + leading text) := by
  simp [trim, rstrip_at right h, lskip_at right h, bind, Except.bind, pure, Except.pure]

/-- What the trimmed pointer denotes as a C string. -/
theorem cstr_trimmed {left text : Bytes} (right : Bytes) (h : 0 ∉ text) :
    cstr (left ++ (wiped text ++ 0 :: right)) (left.length + leading text) =
      .ok (trimmed text) := by
  obtain ⟨rest, hrest⟩ := wiped_split text right
  have hlen : left.length + leading text =
      (left ++ (stripped text).takeWhile isspace).length := by
    simp [leading]
  rw [hrest, ← List.append_assoc, hlen]
  exact cstr_at rest fun h0 => h (trimmed_subset h0)

section Padded

variable {before name behind : Bytes}

theorem trimmed_of_blankless (h : ∀ c ∈ name, isspace c = false) : trimmed name = name := by
  have hstripped : stripped name = name := by
    apply List.rdropWhile_eq_self_iff.mpr
    intro hne
    simp [h _ (List.getLast_mem hne)]
  rw [trimmed, hstripped]
  apply List.dropWhile_eq_self_iff.mpr
  intro hpos
  simp [h _ (List.getElem_mem hpos)]

theorem stripped_of_trimmed (h : trimmed name = name) : stripped name = name := by
  have hlen := leading_add_trimmed name
  have hle := stripped_length_le name
  rw [h] at hlen
  exact (List.rdropWhile_prefix isspace name).eq_of_length (by rw [← stripped]; omega)

theorem leading_of_trimmed (h : trimmed name = name) : leading name = 0 := by
  have hlen := leading_add_trimmed name
  rw [stripped_of_trimmed h, h] at hlen
  omega

theorem wiped_of_trimmed (h : trimmed name = name) : wiped name = name := by
  rw [wiped, stripped_of_trimmed h, Nat.sub_self, List.replicate_zero, List.append_nil]

theorem trimmed_head {c : UInt8} {cs : Bytes} (h : trimmed (c :: cs) = c :: cs) :
    isspace c = false := by
  have hdrop := h
  rw [trimmed, stripped_of_trimmed h] at hdrop
  simpa using List.dropWhile_eq_self_iff.mp hdrop (Nat.zero_lt_succ _)

theorem trimmed_last {init : Bytes} {c : UInt8} (h : trimmed (init ++ [c]) = init ++ [c]) :
    isspace c = false := by
  have hlast := List.rdropWhile_eq_self_iff.mp (stripped_of_trimmed h) (by simp)
  simpa using hlast

theorem stripped_padded (hbehind : ∀ c ∈ behind, isspace c = true) (hname : trimmed name = name)
    (hne : name ≠ []) : stripped (before ++ (name ++ behind)) = before ++ name := by
  obtain ⟨init, c, rfl⟩ : ∃ init c, name = init ++ [c] :=
    ⟨name.dropLast, name.getLast hne, (List.dropLast_append_getLast hne).symm⟩
  have hc := trimmed_last hname
  have hrev : ∀ x ∈ behind.reverse, isspace x = true := by simpa using hbehind
  simp only [stripped, List.rdropWhile, List.reverse_append, List.append_assoc]
  rw [List.dropWhile_append_of_pos hrev]
  simp [hc]

theorem leading_padded (hbefore : ∀ c ∈ before, isspace c = true)
    (hbehind : ∀ c ∈ behind, isspace c = true) (hname : trimmed name = name)
    (hne : name ≠ []) : leading (before ++ (name ++ behind)) = before.length := by
  rw [leading, stripped_padded hbehind hname hne, List.takeWhile_append_of_pos hbefore]
  obtain ⟨c, cs, rfl⟩ := List.exists_cons_of_ne_nil hne
  simp [trimmed_head hname]

/-- Blanks around a name without blanks at its ends are what trimming takes away. -/
theorem trimmed_padded (hbefore : ∀ c ∈ before, isspace c = true)
    (hbehind : ∀ c ∈ behind, isspace c = true) (hname : trimmed name = name)
    (hne : name ≠ []) : trimmed (before ++ (name ++ behind)) = name := by
  rw [trimmed, stripped_padded hbehind hname hne, List.dropWhile_append_of_pos hbefore]
  obtain ⟨c, cs, rfl⟩ := List.exists_cons_of_ne_nil hne
  simp [trimmed_head hname]

theorem wiped_padded (hbehind : ∀ c ∈ behind, isspace c = true) (hname : trimmed name = name)
    (hne : name ≠ []) : wiped (before ++ (name ++ behind)) =
      before ++ (name ++ List.replicate behind.length 0) := by
  rw [wiped, stripped_padded hbehind hname hne]
  simp only [List.length_append, List.append_assoc]
  congr 3
  omega

end Padded

end CompatStrings
