import Mathlib.Algebra.Group.Nat.Defs
import Mathlib.Data.List.Basic
import Mathlib.Data.List.TakeWhile

/-! # Reading a text in pieces of bounded length

A piece ends behind a mark, or where the room for it is used up. -/
namespace LineReader

variable {α : Type*} [DecidableEq α]

/-- The next piece and what it leaves; the room is at least one item. -/
def take_line (mark : α) : ℕ → List α → List α × List α
  | _, [] => ([], [])
  | 0, text => ([], text)
  | n + 1, a :: text =>
    if a = mark then ([a], text)
    else (a :: (take_line mark n text).1, (take_line mark n text).2)

/-- All pieces of a text; the first one is begun and has some room left. -/
def pieces (mark : α) (room : ℕ) : ℕ → List α → List α → List (List α)
  | _, begun, [] => if begun = [] then [] else [begun]
  | left, begun, a :: text =>
    if a = mark ∨ left ≤ 1 then (begun ++ [a]) :: pieces mark room room [] text
    else pieces mark room (left - 1) (begun ++ [a]) text

def lines (mark : α) (room : ℕ) (text : List α) : List (List α) := pieces mark room room [] text

variable {mark : α} {room : ℕ}

theorem pieces_begun (left : ℕ) (begun text : List α) (h : begun ++ text ≠ []) (hleft : 0 < left) :
    pieces mark room left begun text =
      (begun ++ (take_line mark left text).1) ::
        pieces mark room room [] (take_line mark left text).2 := by
  induction text generalizing left begun with
  | nil =>
    have hbegun : begun ≠ [] := by simpa using h
    simp [pieces, take_line, hbegun]
  | cons a text ih =>
    obtain ⟨left, rfl⟩ : ∃ n, left = n + 1 := ⟨left - 1, by omega⟩
    rw [pieces, take_line]
    by_cases ha : a = mark
    · rw [if_pos (Or.inl ha), if_pos ha]
    · rw [if_neg ha]
      by_cases hl : left + 1 ≤ 1
      · obtain rfl : left = 0 := by omega
        rw [if_pos (Or.inr hl)]
        cases text <;> simp [take_line]
      · rw [if_neg (by simp [ha, hl]), Nat.add_sub_cancel,
          ih left (begun ++ [a]) (by simp) (by omega)]
        simp

theorem lines_eq (hroom : 0 < room) {text : List α} (h : text ≠ []) :
    lines mark room text =
      (take_line mark room text).1 :: lines mark room (take_line mark room text).2 := by
  have hbegun := @pieces_begun α _ mark room room [] text (by simpa using h) hroom
  simpa [lines] using hbegun

theorem lines_nil : lines mark room [] = [] := rfl

theorem take_line_fits {line : List α} (hmark : mark ∉ line) (hfit : line.length < room)
    (rest : List α) : take_line mark room (line ++ mark :: rest) = (line ++ [mark], rest) := by
  induction line generalizing room with
  | nil =>
    obtain ⟨n, rfl⟩ : ∃ n, room = n + 1 := ⟨room - 1, by simp at hfit; omega⟩
    simp [take_line]
  | cons a line ih =>
    obtain ⟨n, rfl⟩ : ∃ n, room = n + 1 := ⟨room - 1, by simp at hfit; omega⟩
    have ha : a ≠ mark := fun h => hmark (h ▸ List.mem_cons_self)
    have ih := @ih n (fun h => hmark (List.mem_cons_of_mem a h)) (by simpa using hfit)
    simp [take_line, ha, ih]

/-- Lines that were written with their marks are read back one by one. -/
theorem lines_written (written : List (List α)) (hmark : ∀ line ∈ written, mark ∉ line)
    (hfit : ∀ line ∈ written, line.length < room) (rest : List α) :
    lines mark room (written.flatMap (· ++ [mark]) ++ rest) =
      written.map (· ++ [mark]) ++ lines mark room rest := by
  induction written with
  | nil => rfl
  | cons line written ih =>
    have hline := hfit line List.mem_cons_self
    have ih := ih (fun l hl => hmark l (List.mem_cons_of_mem line hl))
      (fun l hl => hfit l (List.mem_cons_of_mem line hl))
    rw [List.flatMap_cons, List.append_assoc, List.append_assoc, List.singleton_append,
      lines_eq (by omega) (by simp), take_line_fits (hmark line List.mem_cons_self) hline, ih]
    rfl

theorem pieces_behind_mark (left : ℕ) (begun x y : List α) :
    pieces mark room left begun (x ++ mark :: y) =
      pieces mark room left begun (x ++ [mark]) ++ lines mark room y := by
  induction x generalizing left begun with
  | nil => simp [pieces, lines]
  | cons a x ih =>
    rw [List.cons_append, List.cons_append, pieces, pieces]
    split
    · rw [ih room [], List.cons_append]
    · exact ih (left - 1) (begun ++ [a])

/-- A text that is read to its end before anything behind it. -/
def Closed (mark : α) (text : List α) : Prop := text = [] ∨ ∃ x, text = x ++ [mark]

theorem lines_append {text : List α} (h : Closed mark text) (behind : List α) :
    lines mark room (text ++ behind) = lines mark room text ++ lines mark room behind := by
  rcases h with rfl | ⟨x, rfl⟩
  · rfl
  · rw [List.append_assoc]
    exact pieces_behind_mark room [] x behind

theorem pieces_flatten (left : ℕ) (begun text : List α) :
    (pieces mark room left begun text).flatten = begun ++ text := by
  induction text generalizing left begun with
  | nil =>
    by_cases hbegun : begun = []
    · rw [pieces, if_pos hbegun, hbegun]
      rfl
    · rw [pieces, if_neg hbegun, List.flatten_singleton, List.append_nil]
  | cons a text ih =>
    rw [pieces]
    split
    · rw [List.flatten_cons, ih, List.nil_append, List.append_assoc]
      rfl
    · rw [ih, List.append_assoc]
      rfl

theorem lines_flatten (text : List α) : (lines mark room text).flatten = text :=
  pieces_flatten room [] text

theorem take_line_full {line : List α} (hmark : mark ∉ line) (rest : List α) :
    take_line mark line.length (line ++ rest) = (line, rest) := by
  induction line with
  | nil => cases rest <;> rfl
  | cons a line ih =>
    have ha : a ≠ mark := fun h => hmark (h ▸ List.mem_cons_self)
    have ih := ih fun h => hmark (List.mem_cons_of_mem a h)
    rw [List.cons_append, List.length_cons, take_line, if_neg ha, ih]

end LineReader
