import Mathlib.Data.List.Basic

/-! # Streams with a position

A stream is read and written at its position, which both move on. A write may be cut short;
the stream keeps note of it. -/
namespace FileStream

variable {α : Type*}

/-- `room` is the number of items the store can hold and `limits` are the numbers of items that
the next writes get through, all of them once the list is used up. -/
structure Stream (α : Type*) where
  content : List α
  pos : ℕ
  room : ℕ
  limits : List ℕ
  short : Bool
  deriving DecidableEq, Repr

def Stream.accepted (s : Stream α) (n : ℕ) : ℕ :=
  min n (min (s.limits.headD n) (s.room - s.pos))

def Stream.put (s : Stream α) (data : List α) : Stream α where
  content := s.content.take s.pos ++ data.take (s.accepted data.length) ++
    s.content.drop (s.pos + s.accepted data.length)
  pos := s.pos + s.accepted data.length
  room := s.room
  limits := s.limits.tail
  short := s.short || decide (s.accepted data.length < data.length)

def Stream.next (s : Stream α) (n : ℕ) : List α := (s.content.drop s.pos).take n

def Stream.skip (s : Stream α) (n : ℕ) : Stream α := { s with pos := s.pos + (s.next n).length }

def Stream.seek (s : Stream α) (pos : ℕ) : Stream α := { s with pos := pos }

def Stream.AtEnd (s : Stream α) : Prop := s.pos = s.content.length ∧ s.content.length ≤ s.room

variable {s : Stream α} {data : List α}

theorem accepted_le (s : Stream α) (n : ℕ) : s.accepted n ≤ n := Nat.min_le_left _ _

theorem whole_of_put (h : (s.put data).short = false) :
    s.short = false ∧ s.accepted data.length = data.length := by
  obtain ⟨hbefore, hnow⟩ := Bool.or_eq_false_iff.mp h
  have hle := accepted_le s data.length
  have hnot := of_decide_eq_false hnow
  exact ⟨hbefore, by omega⟩

/-- At the end a write appends what it gets through, and ends at the new end. -/
theorem put_cut (hend : s.AtEnd) :
    (s.put data).content = s.content ++ data.take (s.accepted data.length) ∧
      (s.put data).AtEnd := by
  have hover : s.content.drop (s.pos + s.accepted data.length) = [] :=
    List.drop_eq_nil_of_le (by have := hend.1; omega)
  have hcontent : (s.put data).content = s.content ++ data.take (s.accepted data.length) := by
    rw [Stream.put, hover, hend.1, List.take_length, List.append_nil]
  have hle := accepted_le s data.length
  have hroom : s.accepted data.length ≤ s.room - s.pos :=
    Nat.le_trans (Nat.min_le_right _ _) (Nat.min_le_right _ _)
  have hfits := hend.2
  rw [hend.1] at hroom
  refine ⟨hcontent, ?_, ?_⟩
  · rw [hcontent, List.length_append, List.length_take, Nat.min_eq_left hle, ← hend.1]
    rfl
  · rw [hcontent, List.length_append, List.length_take, Nat.min_eq_left hle]
    change s.content.length + s.accepted data.length ≤ s.room
    omega

theorem put_at_end (hend : s.AtEnd) (h : (s.put data).short = false) :
    (s.put data).content = s.content ++ data ∧ (s.put data).AtEnd := by
  obtain ⟨-, hall⟩ := whole_of_put h
  obtain ⟨hcontent, hnext⟩ := @put_cut _ _ data hend
  rw [hall, List.take_length] at hcontent
  exact ⟨hcontent, hnext⟩

def Stream.puts (s : Stream α) (blocks : List (List α)) : Stream α := blocks.foldl Stream.put s

def Stream.Takes (s : Stream α) (blocks : List (List α)) : Prop :=
  (∀ p ∈ s.limits.zip (blocks.map List.length), p.2 ≤ p.1) ∧
    s.content.length + blocks.flatten.length ≤ s.room

theorem accepted_all_iff (s : Stream α) (n : ℕ) :
    s.accepted n = n ↔ n ≤ s.limits.headD n ∧ n ≤ s.room - s.pos := by
  unfold Stream.accepted
  omega

theorem puts_length_le {blocks : List (List α)} (hend : s.AtEnd) :
    (s.puts blocks).content.length ≤ s.content.length + blocks.flatten.length := by
  induction blocks generalizing s with
  | nil => exact Nat.le_refl _
  | cons block blocks ih =>
    obtain ⟨hcontent, hnext⟩ := @put_cut _ _ block hend
    have hle := accepted_le s block.length
    have hrest := ih hnext
    rw [hcontent, List.length_append, List.length_take] at hrest
    rw [List.flatten_cons, List.length_append]
    change ((s.put block).puts blocks).content.length ≤ _
    omega

theorem takes_cons {block : List α} {blocks : List (List α)} (hend : s.AtEnd) :
    s.Takes (block :: blocks) ↔
      s.accepted block.length = block.length ∧ (s.put block).Takes blocks := by
  obtain ⟨hcontent, -⟩ := @put_cut _ _ block hend
  have hlimits : (∀ p ∈ s.limits.zip ((block :: blocks).map List.length), p.2 ≤ p.1) ↔
      block.length ≤ s.limits.headD block.length ∧
        ∀ p ∈ s.limits.tail.zip (blocks.map List.length), p.2 ≤ p.1 := by
    cases s.limits with
    | nil => simp
    | cons l limits => simp
  have hfits := hend.2
  rw [accepted_all_iff, Stream.Takes, hlimits, Stream.Takes, hcontent, List.length_append,
    List.length_take, List.flatten_cons, List.length_append, hend.1]
  constructor
  · rintro ⟨⟨hfirst, hrest⟩, hroom⟩
    refine ⟨⟨hfirst, by omega⟩, hrest, ?_⟩
    change s.content.length + min _ _ + _ ≤ s.room
    omega
  · rintro ⟨⟨hfirst, hnow⟩, hrest, hroom⟩
    have hall := (accepted_all_iff s block.length).mpr ⟨hfirst, hend.1 ▸ hnow⟩
    refine ⟨⟨hfirst, hrest⟩, ?_⟩
    change s.content.length + min _ _ + _ ≤ s.room at hroom
    omega

/-- Written from the end on, blocks are appended as a whole exactly if every write of them gets
through. -/
theorem puts_whole_iff {blocks : List (List α)} (hend : s.AtEnd) :
    (s.puts blocks).content = s.content ++ blocks.flatten ↔ s.Takes blocks := by
  induction blocks generalizing s with
  | nil =>
    refine iff_of_true (List.append_nil _).symm ⟨?_, hend.2⟩
    intro p hp
    simp at hp
  | cons block blocks ih =>
    obtain ⟨hcontent, hnext⟩ := @put_cut _ _ block hend
    have hle := accepted_le s block.length
    change ((s.put block).puts blocks).content = _ ↔ _
    rw [takes_cons hend, ← ih hnext, hcontent]
    constructor
    · intro h
      have hall : s.accepted block.length = block.length := by
        have hlen := @puts_length_le _ _ blocks hnext
        rw [h, hcontent, List.flatten_cons, List.length_append, List.length_append,
          List.length_append, List.length_take] at hlen
        omega
      refine ⟨hall, ?_⟩
      rw [h, hall, List.take_length, List.flatten_cons, List.append_assoc]
    · rintro ⟨hall, h⟩
      rw [h, hall, List.take_length, List.flatten_cons, List.append_assoc]

theorem next_rest {front : List α} (hcontent : s.content = front ++ data)
    (hpos : s.pos = front.length) : s.next data.length = data := by
  rw [Stream.next, hcontent, hpos, List.drop_left, List.take_length]

theorem next_front {behind : List α} (hcontent : s.content = data ++ behind) (hpos : s.pos = 0) :
    s.next data.length = data := by
  rw [Stream.next, hcontent, hpos, List.drop_zero, List.take_left]

end FileStream
