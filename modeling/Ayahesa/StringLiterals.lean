import Mathlib.Data.List.Count

/-! # Texts with string literals

A literal stands between two quotes, and a quote in it is doubled. What stands outside of the
literals is taken as it is. -/
namespace StringLiterals

/-- A text as it is read: what stands in front of the first literal, and every literal with what
stands behind it. -/
structure Statement (α : Type*) where
  front : List α
  literals : List (List α × List α)
  deriving DecidableEq

variable {α : Type*} [DecidableEq α] (quote : α)

mutual

/-- From outside of a literal on. -/
def read : List α → Option (Statement α)
  | [] => some ⟨[], []⟩
  | c :: text =>
    if c = quote then (literal text).map fun (value, s) => ⟨[], (value, s.front) :: s.literals⟩
    else (read text).map fun s => ⟨c :: s.front, s.literals⟩

/-- From inside of a literal on: what is left of its value, and what stands behind it. -/
def literal : List α → Option (List α × Statement α)
  | [] => none
  | c :: text =>
    if c = quote then closing text
    else (literal text).map fun (value, s) => (c :: value, s)

/-- From behind a quote in a literal on; a second one says that the literal goes on. -/
def closing : List α → Option (List α × Statement α)
  | [] => some ([], ⟨[], []⟩)
  | c :: text =>
    if c = quote then (literal text).map fun (value, s) => (quote :: value, s)
    else (read text).map fun s => ([], ⟨c :: s.front, s.literals⟩)

end

/-- A value as it stands in a literal. -/
def doubled (value : List α) : List α := value.flatMap fun c => if c = quote then [c, c] else [c]

def written (s : Statement α) : List α :=
  s.front ++ s.literals.flatMap fun (value, rest) => quote :: (doubled quote value ++ quote :: rest)

variable {quote} {value front rest text : List α}

theorem doubled_cons (c : α) (value : List α) :
    doubled quote (c :: value) = (if c = quote then [c, c] else [c]) ++ doubled quote value := rfl

theorem doubled_length (value : List α) :
    (doubled quote value).length = value.length + value.count quote := by
  induction value with
  | nil => rfl
  | cons c value ih =>
    rw [doubled_cons, List.length_append, ih]
    by_cases hc : c = quote
    · subst hc
      rw [if_pos rfl, List.count_cons_self]
      simp only [List.length_cons, List.length_nil]
      omega
    · rw [if_neg hc, List.count_cons_of_ne hc]
      simp only [List.length_cons, List.length_nil]
      omega

theorem doubled_of_not_mem (h : quote ∉ value) : doubled quote value = value := by
  induction value with
  | nil => rfl
  | cons c value ih =>
    obtain ⟨hc, hvalue⟩ := List.ne_and_not_mem_of_not_mem_cons h
    rw [doubled_cons, if_neg fun h => hc h.symm, ih hvalue]
    rfl

theorem written_of_read (text : List α) :
    (∀ s, read quote text = some s → text = written quote s) ∧
    (∀ value s, literal quote text = some (value, s) →
      text = doubled quote value ++ quote :: written quote s) ∧
    (∀ value s, closing quote text = some (value, s) →
      quote :: text = doubled quote value ++ quote :: written quote s) := by
  induction text with
  | nil =>
    refine ⟨?_, ?_, ?_⟩
    · intro s h
      cases h
      rfl
    · intro value s h
      cases h
    · intro value s h
      cases h
      rfl
  | cons c text ih =>
    obtain ⟨hread, hliteral, hclosing⟩ := ih
    refine ⟨?_, ?_, ?_⟩
    · intro s h
      rw [read] at h
      by_cases hc : c = quote
      · rw [if_pos hc] at h
        obtain ⟨⟨value, s'⟩, htail, rfl⟩ := Option.map_eq_some_iff.mp h
        rw [hliteral value s' htail, hc]
        simp [written]
      · rw [if_neg hc] at h
        obtain ⟨s', htail, rfl⟩ := Option.map_eq_some_iff.mp h
        rw [hread s' htail]
        rfl
    · intro value s h
      rw [literal] at h
      by_cases hc : c = quote
      · rw [if_pos hc] at h
        rw [hc]
        exact hclosing value s h
      · rw [if_neg hc] at h
        obtain ⟨⟨value', s'⟩, htail, hmk⟩ := Option.map_eq_some_iff.mp h
        obtain ⟨rfl, rfl⟩ := Prod.mk.inj hmk
        rw [hliteral value' s' htail, doubled_cons, if_neg hc]
        rfl
    · intro value s h
      rw [closing] at h
      by_cases hc : c = quote
      · rw [if_pos hc] at h
        obtain ⟨⟨value', s'⟩, htail, hmk⟩ := Option.map_eq_some_iff.mp h
        obtain ⟨rfl, rfl⟩ := Prod.mk.inj hmk
        rw [hliteral value' s' htail, doubled_cons, if_pos rfl, hc]
        rfl
      · rw [if_neg hc] at h
        obtain ⟨s', htail, hmk⟩ := Option.map_eq_some_iff.mp h
        obtain ⟨rfl, rfl⟩ := Prod.mk.inj hmk
        rw [hread s' htail]
        rfl

theorem read_plain (h : quote ∉ front) (text : List α) :
    read quote (front ++ text) =
      (read quote text).map fun s => ⟨front ++ s.front, s.literals⟩ := by
  induction front with
  | nil => cases hs : read quote text <;> simp [hs]
  | cons c front ih =>
    obtain ⟨hc, hfront⟩ := List.ne_and_not_mem_of_not_mem_cons h
    rw [List.cons_append, read, if_neg fun h => hc h.symm, ih hfront, Option.map_map]
    rfl

theorem literal_doubled (value text : List α) :
    literal quote (doubled quote value ++ text) =
      (literal quote text).map fun (v, s) => (value ++ v, s) := by
  induction value with
  | nil => cases hs : literal quote text <;> simp [hs, doubled]
  | cons c value ih =>
    rw [doubled_cons]
    by_cases hc : c = quote
    · subst hc
      rw [if_pos rfl, List.append_assoc, List.cons_append, List.cons_append, List.nil_append,
        literal, if_pos rfl, closing, if_pos rfl, ih, Option.map_map]
      rfl
    · rw [if_neg hc, List.append_assoc, List.cons_append, List.nil_append, literal, if_neg hc, ih,
        Option.map_map]
      rfl

theorem closing_plain (h : quote ∉ rest) : closing quote rest = some ([], ⟨rest, []⟩) := by
  have hread : ∀ {text : List α}, quote ∉ text → read quote text = some ⟨text, []⟩ := by
    intro text htext
    have hplain := read_plain htext []
    rw [List.append_nil, read] at hplain
    simpa using hplain
  cases rest with
  | nil => rfl
  | cons c rest =>
    obtain ⟨hc, hrest⟩ := List.ne_and_not_mem_of_not_mem_cons h
    rw [closing, if_neg fun h => hc h.symm, hread hrest]
    rfl

/-- Behind a quote that no other one follows, the text is outside of literals again. -/
theorem closing_eq_read (h : text.head? ≠ some quote) :
    closing quote text = (read quote text).map fun s => ([], s) := by
  cases text with
  | nil => rfl
  | cons c text =>
    have hc : c ≠ quote := fun hc => h (congrArg some hc)
    rw [closing, if_neg hc, read, if_neg hc, Option.map_map]
    rfl

/-- A statement is read back from its text if its parts hold no quote and stand apart. -/
theorem read_written {literals : List (List α × List α)} (hfront : quote ∉ front)
    (hrests : ∀ p ∈ literals, quote ∉ p.2) (hapart : ∀ p ∈ literals.dropLast, p.2 ≠ []) :
    read quote (written quote ⟨front, literals⟩) = some ⟨front, literals⟩ := by
  induction literals generalizing front with
  | nil =>
    have hplain := read_plain hfront []
    simpa [written, read] using hplain
  | cons p literals ih =>
    obtain ⟨value, rest⟩ := p
    have hrest : quote ∉ rest := hrests (value, rest) List.mem_cons_self
    have hbehind := @ih rest hrest (fun q hq => hrests q (List.mem_cons_of_mem _ hq)) fun q hq =>
      hapart q (by
        cases literals with
        | nil => cases hq
        | cons _ _ => exact List.mem_cons_of_mem _ hq)
    have hhead : (written quote ⟨rest, literals⟩).head? ≠ some quote := by
      cases rest with
      | cons c rest =>
        intro h
        exact hrest (Option.some.inj h ▸ List.mem_cons_self)
      | nil =>
        cases literals with
        | nil => nofun
        | cons q literals => exact absurd rfl (hapart (value, []) List.mem_cons_self)
    have hwritten : written quote ⟨front, (value, rest) :: literals⟩ =
        front ++ quote :: (doubled quote value ++ quote :: written quote ⟨rest, literals⟩) := by
      simp [written]
    rw [hwritten, read_plain hfront, read, if_pos rfl, literal_doubled, literal, if_pos rfl,
      closing_eq_read hhead, hbehind]
    simp

/-- A text reads as one literal between two plain parts if and only if it is written so. -/
theorem read_eq_iff (hfront : quote ∉ front) (hrest : quote ∉ rest) :
    read quote text = some ⟨front, [(value, rest)]⟩ ↔
      text = front ++ quote :: (doubled quote value ++ quote :: rest) := by
  constructor
  · intro h
    rw [(written_of_read text).1 _ h, written]
    simp
  · rintro rfl
    rw [read_plain hfront, read, if_pos rfl, literal_doubled, literal, if_pos rfl,
      closing_plain hrest]
    simp

/-- A value put between the plain parts as it is, in a text that is cut: it reads as the value it
was made of if and only if it is that value, without a quote, and nothing was cut off. -/
theorem read_embedded_iff {used : List α} {n : ℕ} (hfront : quote ∉ front) (hrest : quote ∉ rest)
    (hused : used <+: value) :
    read quote ((front ++ quote :: (used ++ quote :: rest)).take n) =
        some ⟨front, [(value, rest)]⟩ ↔
      used = value ∧ quote ∉ value ∧ front.length + value.length + rest.length + 2 ≤ n := by
  have hlength : ∀ used : List α, (front ++ quote :: (used ++ quote :: rest)).length =
      front.length + used.length + rest.length + 2 := by
    intro used
    simp only [List.length_append, List.length_cons]
    omega
  rw [read_eq_iff hfront hrest]
  constructor
  · intro h
    have hlen := congrArg List.length h
    rw [List.length_take, hlength, hlength, doubled_length] at hlen
    have hle := hused.length_le
    have hcount : value.count quote = 0 := by omega
    refine ⟨hused.eq_of_length (by omega), List.count_eq_zero.mp hcount, by omega⟩
  · rintro ⟨rfl, hclean, hfits⟩
    rw [doubled_of_not_mem hclean, List.take_of_length_le]
    rw [hlength]
    exact hfits

end StringLiterals
