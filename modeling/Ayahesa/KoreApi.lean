import Ayahesa.ByteSearch
import Ayahesa.CMemory
import Ayahesa.DelimitedFields
import Ayahesa.SimultaneousReplace

/-! # The functions of the Kore server that the framework calls

Kore is not part of the repository. Each function is a parameter that comes with the
behaviour its callers rely on; `reference` is one server with that behaviour. -/
namespace KoreApi

open CMemory ByteSearch DelimitedFields SimultaneousReplace

structure Kore where
  mem_find : Bytes → Bytes → Option ℕ
  /-- The leftmost occurrence within the window, or NULL. -/
  mem_find_leftmost : ∀ src needle i, needle ≠ [] →
    (mem_find src needle = some i ↔
      Occurs needle src i ∧ ∀ j < i, ¬ Occurs needle src j)
  split_string : Bytes → UInt8 → ℕ → List Bytes
  /-- `strsep` on the delimiter; empty fields are skipped, one slot is kept for the NULL. -/
  split_string_fields : ∀ input delim ele,
    split_string input delim ele = (fields delim input).take (ele - 1)
  base64_decode : Bytes → Option Bytes
  buf_replace_string : Bytes → Bytes → Bytes → Bytes
  buf_replace_string_free : ∀ b src dst, src ≠ [] → Free src b → buf_replace_string b src dst = b
  /-- The leftmost occurrence is replaced and the search goes on behind the replacement. -/
  buf_replace_string_found : ∀ b src dst i, src ≠ [] → find src b = some i →
    buf_replace_string b src dst =
      b.take i ++ dst ++ buf_replace_string (b.drop (i + src.length)) src dst

theorem Kore.mem_find_eq (K : Kore) {src needle : Bytes} (h : needle ≠ []) :
    K.mem_find src needle = find needle src := by
  apply Option.ext
  intro i
  exact (K.mem_find_leftmost src needle i h).trans (find_eq_some_iff h).symm

/-- `kore_mem_find` on a window of a region. A window that reaches beyond the region does no
harm as long as the pattern is met before its end. -/
def kore_mem_find (K : Kore) (d : Bytes) (start slen : ℕ) (needle : Bytes) : C (Option ℕ) :=
  match K.mem_find ((d.drop start).take slen) needle with
  | some i => .ok (some (start + i))
  | none => if start + slen ≤ d.length then .ok none else .error .outOfBounds

theorem kore_mem_find_whole (K : Kore) (d : Bytes) {needle : Bytes} (h : needle ≠ []) :
    kore_mem_find K d 0 d.length needle = .ok (find needle d) := by
  unfold kore_mem_find
  rw [K.mem_find_eq h]
  simp only [List.drop_zero, List.take_length, Nat.zero_add, Nat.le_refl, if_true]
  cases find needle d <;> rfl

/-- The laws fix the function: it reads the buffer once, from left to right. -/
theorem Kore.buf_replace_string_eq (K : Kore) (b dst : Bytes) {src : Bytes} (hne : src ≠ []) :
    K.buf_replace_string b src dst = expand [⟨src, dst⟩] b := by
  induction hn : b.length using Nat.strong_induction_on generalizing b with
  | h n ih =>
    cases hf : find src b with
    | none =>
      have hfree := (find_eq_none_iff hne).mp hf
      rw [K.buf_replace_string_free b src dst hne hfree, expand_of_free]
      intro e he
      rw [List.mem_singleton.mp he]
      exact hfree
    | some i =>
      have hb := find_bound hne hf
      have hpos := List.length_pos_of_ne_nil hne
      rw [K.buf_replace_string_found b src dst i hne hf, expand_found (e := ⟨src, dst⟩) hne hf,
        ih _ (by rw [List.length_drop]; omega) _ rfl]

def reference : Kore where
  mem_find src needle := find needle src
  mem_find_leftmost _ _ _ h := find_eq_some_iff h
  split_string input delim ele := (fields delim input).take (ele - 1)
  split_string_fields _ _ _ := rfl
  base64_decode s := if s = bytes "QQ==" then some (bytes "A") else none
  buf_replace_string b src dst := expand [⟨src, dst⟩] b
  buf_replace_string_free _ _ _ _ h := expand_of_free fun _ he => List.mem_singleton.mp he ▸ h
  buf_replace_string_found _ src dst _ hne h := expand_found (e := ⟨src, dst⟩) hne h

end KoreApi
