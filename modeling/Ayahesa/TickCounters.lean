import Mathlib.Data.List.Chain

/-! # Counting within the ticks of a clock

A stamp is a reading of a clock and the number of stamps that the same reading gave before. Its
time is the sum, so stamps of one tick can run into the next one. -/
namespace TickCounters

structure Stamp where
  tick : ℕ
  index : ℕ

def Stamp.time (a : Stamp) : ℕ := a.tick + a.index

/-- The next stamp counts on, or starts a later tick. -/
def Follows (a b : Stamp) : Prop :=
  b.tick = a.tick ∧ b.index = a.index + 1 ∨ a.tick < b.tick ∧ b.index = 0

/-- A tick that is followed by another one has not run into it. -/
def Spaced (a b : Stamp) : Prop := a.tick < b.tick → a.time < b.tick

theorem time_lt_of_spaced {a b : Stamp} (h : Follows a b) (hspaced : Spaced a b) :
    a.time < b.time := by
  unfold Stamp.time
  rcases h with ⟨htick, hindex⟩ | ⟨hlt, hindex⟩
  · omega
  · have hover : a.tick + a.index < b.tick := hspaced hlt
    omega

/-- The tick of a stamp has given all smaller numbers before. -/
def Counted (past : List Stamp) (a : Stamp) : Prop :=
  ∀ j ≤ a.index, ⟨a.tick, j⟩ ∈ past ++ [a]

theorem counted_next {past : List Stamp} {a b : Stamp} (ha : Counted past a) (h : Follows a b) :
    Counted (past ++ [a]) b := by
  intro j hj
  by_cases hlast : j = b.index
  · subst hlast
    exact List.mem_append_right _ (List.mem_singleton_self b)
  · rcases h with ⟨htick, hindex⟩ | ⟨-, hindex⟩
    · rw [htick]
      exact List.mem_append_left _ (ha j (by omega))
    · omega

/-- The number of a stamp is how often its tick came up before, and no tick in front is later. -/
theorem index_eq_count {past rest : List Stamp} {a : Stamp}
    (hfirst : ∀ b ∈ (past ++ a :: rest).head?, b.index = 0)
    (hfollows : (past ++ a :: rest).IsChain Follows) :
    a.index = past.countP (·.tick = a.tick) ∧ ∀ b ∈ past, b.tick ≤ a.tick := by
  induction past using List.reverseRecOn generalizing a rest with
  | nil => exact ⟨hfirst a rfl, nofun⟩
  | append_singleton past b ih =>
    rw [List.append_assoc, List.singleton_append] at hfirst hfollows
    obtain ⟨hcount, hbefore⟩ := ih hfirst hfollows
    have hab : Follows b a := (List.isChain_cons_cons.mp hfollows.right_of_append).1
    rw [List.countP_append, List.countP_singleton]
    rcases hab with ⟨htick, hindex⟩ | ⟨hlt, hindex⟩
    · refine ⟨?_, ?_⟩
      · rw [htick, hindex, hcount, if_pos (by simp)]
      · intro c hc
        rcases List.mem_append.mp hc with hc | hc
        · exact htick ▸ hbefore c hc
        · rw [List.mem_singleton.mp hc, htick]
    · have hbehind : ∀ c ∈ past ++ [b], c.tick < a.tick := by
        intro c hc
        rcases List.mem_append.mp hc with hc | hc
        · exact Nat.lt_of_le_of_lt (hbefore c hc) hlt
        · rw [List.mem_singleton.mp hc]
          exact hlt
      refine ⟨?_, fun c hc => Nat.le_of_lt (hbehind c hc)⟩
      have hnone : past.countP (·.tick = a.tick) = 0 := by
        apply List.countP_eq_zero.mpr
        intro c hc
        have hlt := hbehind c (List.mem_append_left _ hc)
        simp [Nat.ne_of_lt hlt]
      rw [hindex, hnone, if_neg (by simp [Nat.ne_of_lt hlt])]

theorem spaced_of_nodup {past rest : List Stamp} {a : Stamp} (ha : Counted past a)
    (hfollows : (a :: rest).IsChain Follows)
    (hnodup : ((past ++ a :: rest).map Stamp.time).Nodup) : (a :: rest).IsChain Spaced := by
  induction rest generalizing past a with
  | nil => exact List.isChain_singleton a
  | cons b rest ih =>
    obtain ⟨hab, hrest⟩ := List.isChain_cons_cons.mp hfollows
    rw [List.append_cons] at hnodup
    refine List.isChain_cons_cons.mpr ⟨?_, ih (counted_next ha hab) hrest hnodup⟩
    intro hlt
    by_contra hover
    -- the number that reaches the new tick was given by the old one
    have hindex : b.index = 0 := by
      rcases hab with ⟨htick, -⟩ | ⟨-, hindex⟩
      · omega
      · exact hindex
    have hle : b.tick - a.tick ≤ a.index := by
      unfold Stamp.time at hover
      omega
    have hbefore := List.mem_map_of_mem (f := Stamp.time) (ha _ hle)
    have hsame : Stamp.time ⟨a.tick, b.tick - a.tick⟩ = b.time := by
      unfold Stamp.time
      simp only
      omega
    rw [hsame] at hbefore
    rw [List.map_append, List.map_cons] at hnodup
    exact (List.nodup_append.mp hnodup).2.2 _ hbefore _ List.mem_cons_self rfl

theorem times_increase {stamps : List Stamp} (hfollows : stamps.IsChain Follows)
    (hspaced : stamps.IsChain Spaced) : (stamps.map Stamp.time).IsChain (· < ·) := by
  induction stamps with
  | nil => exact List.isChain_nil
  | cons a rest ih =>
    cases rest with
    | nil => exact List.isChain_singleton _
    | cons b rest =>
      obtain ⟨hab, hfollows⟩ := List.isChain_cons_cons.mp hfollows
      obtain ⟨hroom, hspaced⟩ := List.isChain_cons_cons.mp hspaced
      exact List.isChain_cons_cons.mpr ⟨time_lt_of_spaced hab hroom, ih hfollows hspaced⟩

/-- Times are pairwise different exactly if no tick runs into the next one. -/
theorem times_nodup_iff {stamps : List Stamp} (hfirst : ∀ a ∈ stamps.head?, a.index = 0)
    (hfollows : stamps.IsChain Follows) :
    (stamps.map Stamp.time).Nodup ↔ stamps.IsChain Spaced := by
  constructor
  · intro hnodup
    cases stamps with
    | nil => exact List.isChain_nil
    | cons a rest =>
      have hcounted : Counted [] a := by
        intro j hj
        have hzero : a.index = 0 := hfirst a rfl
        obtain rfl : j = a.index := by omega
        exact List.mem_singleton_self a
      exact spaced_of_nodup hcounted hfollows hnodup
  · intro hspaced
    refine (List.isChain_iff_pairwise.mp (times_increase hfollows hspaced)).imp ?_
    intro t u hlt
    exact Nat.ne_of_lt hlt

end TickCounters
