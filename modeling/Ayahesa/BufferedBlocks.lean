import Mathlib.Data.List.Basic

/-! # Blocks that are absorbed one symbol late

Symbols are collected in a buffer of one block. A full block is absorbed only when another symbol
comes, so the last block of an input always stays in the buffer. -/
namespace BufferedBlocks

variable {σ α : Type*}

/-- The block length and what absorbing a block does. -/
def push (n : ℕ) (absorb : σ → List α → σ) (s : σ × List α) (x : α) : σ × List α :=
  if s.2.length = n then (absorb s.1 s.2, [x]) else (s.1, s.2 ++ [x])

def feed (n : ℕ) (absorb : σ → List α → σ) (s : σ × List α) (xs : List α) : σ × List α :=
  xs.foldl (push n absorb) s

/-- Full blocks, and a rest that is empty only when nothing else is there. -/
structure Cut (n : ℕ) (xs : List α) (blocks : List (List α)) (rest : List α) : Prop where
  whole : xs = blocks.flatten ++ rest
  full : ∀ b ∈ blocks, b.length = n
  fits : rest.length ≤ n
  kept : rest = [] → blocks = []

variable {n : ℕ} {absorb : σ → List α → σ} {s : σ} {buf xs ys : List α}

theorem feed_append (s : σ × List α) (xs ys : List α) :
    feed n absorb s (xs ++ ys) = feed n absorb (feed n absorb s xs) ys := List.foldl_append

theorem feed_short (h : buf.length + xs.length ≤ n) :
    feed n absorb (s, buf) xs = (s, buf ++ xs) := by
  induction xs generalizing buf with
  | nil => simp [feed]
  | cons x xs ih =>
    rw [List.length_cons] at h
    have hroom : buf.length ≠ n := by omega
    have hpush : push n absorb (s, buf) x = (s, buf ++ [x]) := if_neg hroom
    rw [feed, List.foldl_cons, hpush]
    refine (ih ?_).trans (by simp)
    rw [List.length_append, List.length_singleton]
    omega

theorem feed_ready (hn : 0 < n) (h : buf.length = n) (hxs : xs ≠ []) :
    feed n absorb (s, buf) xs = feed n absorb (absorb s buf, []) xs := by
  obtain ⟨x, xs, rfl⟩ := List.exists_cons_of_ne_nil hxs
  have hpush : push n absorb (s, buf) x = (absorb s buf, [x]) := if_pos h
  have hempty : push n absorb (absorb s buf, []) x = (absorb s buf, [x]) := if_neg (by simp; omega)
  rw [feed, feed, List.foldl_cons, List.foldl_cons, hpush, hempty]

/-- More symbols than the buffer has room for fill it first. -/
theorem feed_over (hn : 0 < n) (hbuf : buf.length ≤ n) (h : n < buf.length + xs.length) :
    feed n absorb (s, buf) xs =
      feed n absorb (absorb s (buf ++ xs.take (n - buf.length)), [])
        (xs.drop (n - buf.length)) := by
  have hlen : (buf ++ xs.take (n - buf.length)).length = n := by
    rw [List.length_append, List.length_take]
    omega
  have hrest : xs.drop (n - buf.length) ≠ [] := by
    rw [← List.length_pos_iff, List.length_drop]
    omega
  have hfill : feed n absorb (s, buf) (xs.take (n - buf.length)) =
      (s, buf ++ xs.take (n - buf.length)) :=
    feed_short (by simp only [← List.length_append, hlen, Nat.le_refl])
  calc feed n absorb (s, buf) xs
      = feed n absorb (s, buf) (xs.take (n - buf.length) ++ xs.drop (n - buf.length)) := by
        rw [List.take_append_drop]
    _ = feed n absorb (s, buf ++ xs.take (n - buf.length)) (xs.drop (n - buf.length)) := by
        rw [feed_append, hfill]
    _ = _ := feed_ready hn hlen hrest

theorem feed_cut (hn : 0 < n) {blocks : List (List α)} {rest : List α}
    (h : Cut n xs blocks rest) : feed n absorb (s, []) xs = (blocks.foldl absorb s, rest) := by
  obtain ⟨rfl, hfull, hfits, hkept⟩ := h
  induction blocks generalizing s with
  | nil =>
    rw [List.flatten_nil, List.nil_append]
    exact feed_short (by simpa using hfits)
  | cons b blocks ih =>
    have hb := hfull b List.mem_cons_self
    have hne : blocks.flatten ++ rest ≠ [] := by
      intro hnil
      exact absurd (hkept (List.append_eq_nil_iff.mp hnil).2) (by simp)
    have hfirst : feed n absorb (s, []) b = (s, b) := feed_short (by simp [hb])
    rw [List.flatten_cons, List.append_assoc, feed_append, hfirst, feed_ready hn hb hne,
      List.foldl_cons]
    refine ih (fun b' hb' => hfull b' (List.mem_cons_of_mem b hb')) fun hnil => ?_
    exact absurd (hkept hnil) (by simp)

theorem cut_exists (hn : 0 < n) (xs : List α) : ∃ blocks rest, Cut n xs blocks rest := by
  by_cases h : xs.length ≤ n
  · exact ⟨[], xs, rfl, by simp, h, fun _ => rfl⟩
  · obtain ⟨blocks, rest, hwhole, hfull, hfits, hkept⟩ := cut_exists hn (xs.drop n)
    refine ⟨xs.take n :: blocks, rest, ?_, ?_, hfits, fun hnil => ?_⟩
    · rw [List.flatten_cons, List.append_assoc, ← hwhole, List.take_append_drop]
    · rintro b (_ | ⟨_, hb⟩)
      · rw [List.length_take]
        omega
      · exact hfull b hb
    · have hdrop := congrArg List.length hwhole
      rw [hnil, hkept hnil, List.length_drop] at hdrop
      simp at hdrop
      omega
termination_by xs.length
decreasing_by rw [List.length_drop]; omega

end BufferedBlocks
