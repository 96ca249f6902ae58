import Mathlib.Data.List.Infix
import Mathlib.Data.List.Basic
import Mathlib.Data.Nat.Find

/-! # Leftmost search for a word in a list

A word whose first letter does not occur again in it cannot overlap itself, and an
occurrence of it cannot cross a position that holds that first letter. A letter outside
the word cuts a list as well. Both facts let a search be split at such a position. -/
namespace ByteSearch

variable {α : Type*}

def Occurs (pat s : List α) (i : ℕ) : Prop := pat <+: s.drop i

def Free (pat s : List α) : Prop := ∀ i, ¬ Occurs pat s i

/-- The first letter of the word is not found again in it. -/
def HeadUnique (pat : List α) : Prop := ∃ c cs, pat = c :: cs ∧ c ∉ cs

/-- No occurrence of the word crosses from the left part into the right part. -/
def Cut (pat left right : List α) : Prop :=
  ∀ i, i < left.length → left.length < i + pat.length → ¬ Occurs pat (left ++ right) i

theorem HeadUnique.ne_nil {pat : List α} (h : HeadUnique pat) : pat ≠ [] := by
  obtain ⟨c, cs, rfl, _⟩ := h
  exact List.cons_ne_nil c cs

theorem HeadUnique.length_pos {pat : List α} (h : HeadUnique pat) : 0 < pat.length :=
  List.length_pos_of_ne_nil h.ne_nil

theorem Occurs.bound {pat s : List α} {i : ℕ} (h : Occurs pat s i) (hp : pat ≠ []) :
    i + pat.length ≤ s.length := by
  have hl := h.length_le
  rw [List.length_drop] at hl
  have := List.length_pos_of_ne_nil hp
  omega

theorem Occurs.get {pat s : List α} {i k : ℕ} (h : Occurs pat s i) (hk : k < pat.length) :
    s[i + k]? = pat[k]? := by
  obtain ⟨t, ht⟩ := h
  have hd := congrArg (fun l : List α => l[k]?) ht
  simp only [List.getElem?_drop] at hd
  rw [← hd, List.getElem?_append_left hk]

theorem occurs_iff_split {pat s : List α} {i : ℕ} (hi : i ≤ s.length) :
    Occurs pat s i ↔ ∃ left right, s = left ++ pat ++ right ∧ left.length = i := by
  constructor
  · rintro ⟨t, ht⟩
    refine ⟨s.take i, t, ?_, by rw [List.length_take, Nat.min_eq_left hi]⟩
    rw [List.append_assoc, ht, List.take_append_drop]
  · rintro ⟨left, right, rfl, rfl⟩
    exact ⟨right, by simp [List.append_assoc]⟩

theorem occurs_append_left {pat left right : List α} {i : ℕ} (h : i + pat.length ≤ left.length) :
    Occurs pat (left ++ right) i ↔ Occurs pat left i := by
  unfold Occurs
  rw [List.drop_append_of_le_length (by omega)]
  constructor
  · intro ho
    rw [List.prefix_iff_eq_take] at ho ⊢
    rwa [List.take_append_of_le_length (by rw [List.length_drop]; omega)] at ho
  · exact fun ho => ho.trans (List.prefix_append _ _)

theorem occurs_append_right {pat left right : List α} {i : ℕ} :
    Occurs pat (left ++ right) (left.length + i) ↔ Occurs pat right i := by
  unfold Occurs
  rw [List.drop_append, List.drop_eq_nil_of_le (by omega)]
  simp

/-- In the first `w` letters only the occurrences that end there are left. -/
theorem occurs_take {pat s : List α} {i w : ℕ} (hp : pat ≠ []) :
    Occurs pat (s.take w) i ↔ Occurs pat s i ∧ i + pat.length ≤ w := by
  constructor
  · intro ho
    have hb := ho.bound hp
    rw [List.length_take] at hb
    refine ⟨?_, by omega⟩
    rw [← List.take_append_drop w s, occurs_append_left (by rw [List.length_take]; omega)]
    exact ho
  · rintro ⟨ho, hw⟩
    have hb := ho.bound hp
    rw [← List.take_append_drop w s, occurs_append_left (by rw [List.length_take]; omega)] at ho
    exact ho

theorem free_nil {pat : List α} (hp : pat ≠ []) : Free pat [] := by
  intro i h
  exact hp (List.prefix_nil.mp (by simpa [Occurs] using h))

theorem free_of_not_isInfix {pat s : List α} (h : ¬ pat <:+: s) : Free pat s := by
  intro i ho
  exact h (ho.isInfix.trans (List.drop_suffix i s).isInfix)

theorem Free.not_isInfix {pat s : List α} (h : Free pat s) : ¬ pat <:+: s := by
  rintro ⟨left, right, rfl⟩
  exact h left.length ⟨right, by simp [List.append_assoc]⟩

theorem free_iff {pat s : List α} : Free pat s ↔ ¬ pat <:+: s :=
  ⟨Free.not_isInfix, free_of_not_isInfix⟩

instance [DecidableEq α] (pat s : List α) : Decidable (Free pat s) := decidable_of_iff' _ free_iff

theorem Free.of_isInfix {pat s t : List α} (h : Free pat s) (ht : t <:+: s) : Free pat t :=
  free_of_not_isInfix fun hi => h.not_isInfix (hi.trans ht)

theorem free_of_not_mem {c : α} {cs s : List α} (h : c ∉ s) : Free (c :: cs) s := by
  apply free_of_not_isInfix
  intro hi
  exact h (hi.subset List.mem_cons_self)

theorem cut_of_head {pat left right : List α} (hp : HeadUnique pat)
    (hr : right.head? = pat.head?) : Cut pat left right := by
  obtain ⟨c, cs, rfl, hc⟩ := hp
  intro i hi hlt ho
  have hg := ho.get (k := left.length - i) (by omega)
  rw [show i + (left.length - i) = left.length + 0 by omega,
    List.getElem?_append_right (by omega)] at hg
  simp only [Nat.add_zero, Nat.sub_self, ← List.head?_eq_getElem?, hr, List.head?_cons] at hg
  obtain ⟨k, hk⟩ : ∃ k, left.length - i = k + 1 := ⟨left.length - i - 1, by omega⟩
  rw [hk, List.getElem?_cons_succ] at hg
  exact hc (List.mem_of_getElem? hg.symm)

theorem cut_of_separator {pat left right : List α} {z : α} (hz : z ∉ pat)
    (hr : right.head? = some z) : Cut pat left right := by
  intro i hi hlt ho
  have hg := ho.get (k := left.length - i) (by omega)
  rw [show i + (left.length - i) = left.length + 0 by omega,
    List.getElem?_append_right (by omega)] at hg
  simp only [Nat.add_zero, Nat.sub_self, ← List.head?_eq_getElem?, hr] at hg
  exact hz (List.mem_of_getElem? hg.symm)

theorem cut_of_not_mem {c : α} {cs left right : List α} (h : c ∉ left) :
    Cut (c :: cs) left right := by
  intro i hi _ ho
  have hg := ho.get (Nat.zero_lt_succ cs.length)
  rw [Nat.add_zero, List.getElem?_append_left hi] at hg
  exact h (List.mem_of_getElem? hg)

/-- A part ends with a letter that the word has at most at its end. -/
theorem cut_of_end {pat left right : List α} {z : α} (hz : z ∉ pat.dropLast) :
    Cut pat (left ++ [z]) right := by
  intro i hi hlt ho
  rw [List.length_append, List.length_singleton] at hi hlt
  have hg := ho.get (k := left.length - i) (by omega)
  rw [show i + (left.length - i) = left.length by omega, List.append_assoc,
    List.getElem?_append_right le_rfl, Nat.sub_self] at hg
  refine hz (List.mem_of_getElem? (i := left.length - i) ?_)
  rw [List.getElem?_dropLast, if_pos (by omega), ← hg]
  rfl

theorem Cut.occurs_iff {pat left right : List α} (h : Cut pat left right) (hp : pat ≠ [])
    {i : ℕ} : Occurs pat (left ++ right) i ↔
      Occurs pat left i ∨ ∃ j, i = left.length + j ∧ Occurs pat right j := by
  constructor
  · intro ho
    by_cases hi : i < left.length
    · by_cases hlt : left.length < i + pat.length
      · exact absurd ho (h i hi hlt)
      · exact Or.inl ((occurs_append_left (by omega)).mp ho)
    · obtain ⟨j, rfl⟩ : ∃ j, i = left.length + j := ⟨i - left.length, by omega⟩
      exact Or.inr ⟨j, rfl, occurs_append_right.mp ho⟩
  · rintro (ho | ⟨j, rfl, ho⟩)
    · exact (occurs_append_left (ho.bound hp)).mpr ho
    · exact occurs_append_right.mpr ho

theorem Cut.free_iff {pat left right : List α} (h : Cut pat left right) (hp : pat ≠ []) :
    Free pat (left ++ right) ↔ Free pat left ∧ Free pat right := by
  constructor
  · intro hf
    exact ⟨hf.of_isInfix (List.infix_append' [] left right),
      hf.of_isInfix (List.suffix_append left right).isInfix⟩
  · rintro ⟨hl, hr⟩ i ho
    rcases (h.occurs_iff hp).mp ho with ho | ⟨j, _, ho⟩
    · exact hl i ho
    · exact hr j ho

/-- Letters that the word does not have keep two parts apart. -/
theorem free_separated {pat left sep right : List α} (hp : pat ≠ []) (hne : sep ≠ [])
    (hsep : ∀ c ∈ sep, c ∉ pat) :
    Free pat (left ++ (sep ++ right)) ↔ Free pat left ∧ Free pat right := by
  have hfree : Free pat sep := by
    intro i ho
    have hpos := List.length_pos_iff.mpr hp
    have hg := ho.get hpos
    rw [List.getElem?_eq_getElem hpos] at hg
    exact hsep _ (List.mem_of_getElem? hg) (List.getElem_mem hpos)
  obtain ⟨c, init, hhead⟩ := List.exists_cons_of_ne_nil hne
  have hfront : Cut pat left (sep ++ right) :=
    cut_of_separator (hsep c (hhead ▸ List.mem_cons_self)) (by rw [hhead]; rfl)
  have hbehind : Cut pat sep right := by
    rw [← List.dropLast_append_getLast hne]
    exact cut_of_end fun h => hsep _ (List.getLast_mem hne) (List.dropLast_subset _ h)
  rw [hfront.free_iff hp, hbehind.free_iff hp]
  exact ⟨fun h => ⟨h.1, h.2.2⟩, fun h => ⟨h.1, hfree, h.2⟩⟩

/-- A word does not start inside another one with the same first letter, unless one of them is
the beginning of the other. -/
theorem not_occurs_in_word {pat w s : List α} {i : ℕ} (hp : HeadUnique pat) (hw : HeadUnique w)
    (hhead : pat.head? = w.head?) (hpw : ¬ pat <+: w) (hwp : ¬ w <+: pat) (hi : i < w.length) :
    ¬ Occurs pat (w ++ s) i := by
  intro ho
  obtain ⟨c, cs, rfl, hc⟩ := hw
  cases i with
  | zero =>
    have ho' : pat <+: c :: cs ++ s := by simpa [Occurs] using ho
    rcases List.prefix_or_prefix_of_prefix ho' (List.prefix_append (c :: cs) s) with h | h
    · exact hpw h
    · exact hwp h
  | succ i =>
    have hg := ho.get hp.length_pos
    rw [Nat.add_zero, List.getElem?_append_left hi, ← List.head?_eq_getElem?, hhead] at hg
    rw [List.getElem?_cons_succ, List.head?_cons] at hg
    exact hc (List.mem_of_getElem? hg)

theorem free_word_append {pat w s : List α} (hp : HeadUnique pat) (hw : HeadUnique w)
    (hhead : pat.head? = w.head?) (hpw : ¬ pat <+: w) (hwp : ¬ w <+: pat) (hs : Free pat s) :
    Free pat (w ++ s) := by
  intro i ho
  by_cases hi : i < w.length
  · exact not_occurs_in_word hp hw hhead hpw hwp hi ho
  · obtain ⟨j, rfl⟩ : ∃ j, i = w.length + j := ⟨i - w.length, by omega⟩
    exact hs j (occurs_append_right.mp ho)

section Search

variable [DecidableEq α]

def find (pat : List α) : List α → Option ℕ
  | [] => if pat = [] then some 0 else none
  | x :: xs => if pat.isPrefixOf (x :: xs) then some 0 else (find pat xs).map (· + 1)

instance (pat s : List α) (i : ℕ) : Decidable (Occurs pat s i) :=
  decidable_of_iff (pat.isPrefixOf (s.drop i) = true) List.isPrefixOf_iff_prefix

theorem find_eq_some_iff {pat s : List α} {i : ℕ} (hp : pat ≠ []) :
    find pat s = some i ↔ Occurs pat s i ∧ ∀ j < i, ¬ Occurs pat s j := by
  induction s generalizing i with
  | nil =>
    simp only [find, hp, if_false, reduceCtorEq, false_iff, not_and]
    intro ho
    exact absurd ho (free_nil hp i)
  | cons x xs ih =>
    by_cases h0 : pat.isPrefixOf (x :: xs)
    · have ho : Occurs pat (x :: xs) 0 := List.isPrefixOf_iff_prefix.mp h0
      simp only [find, h0, if_true, Option.some.injEq]
      constructor
      · rintro rfl
        exact ⟨ho, fun j hj => absurd hj (Nat.not_lt_zero j)⟩
      · rintro ⟨_, hm⟩
        by_contra hne
        exact hm 0 (by omega) ho
    · have hn : ¬ Occurs pat (x :: xs) 0 := fun ho => h0 (List.isPrefixOf_iff_prefix.mpr ho)
      simp only [find, h0, Bool.false_eq_true, if_false, Option.map_eq_some_iff]
      constructor
      · rintro ⟨k, hk, rfl⟩
        obtain ⟨ho, hm⟩ := ih.mp hk
        refine ⟨by simpa [Occurs] using ho, ?_⟩
        intro j hj
        cases j with
        | zero => exact hn
        | succ j => simpa [Occurs] using hm j (by omega)
      · rintro ⟨ho, hm⟩
        cases i with
        | zero => exact absurd ho hn
        | succ i =>
          refine ⟨i, ih.mpr ⟨by simpa [Occurs] using ho, ?_⟩, rfl⟩
          intro j hj
          simpa [Occurs] using hm (j + 1) (by omega)

theorem find_eq_none_iff {pat s : List α} (hp : pat ≠ []) :
    find pat s = none ↔ Free pat s := by
  constructor
  · intro hn i ho
    obtain ⟨k, hk, hmin⟩ : ∃ k, Occurs pat s k ∧ ∀ j < k, ¬ Occurs pat s j :=
      ⟨Nat.find ⟨i, ho⟩, Nat.find_spec ⟨i, ho⟩, fun j hj => Nat.find_min ⟨i, ho⟩ hj⟩
    rw [(find_eq_some_iff hp).mpr ⟨hk, hmin⟩] at hn
    exact Option.some_ne_none k hn
  · intro hf
    cases hs : find pat s with
    | none => rfl
    | some i => exact absurd ((find_eq_some_iff hp).mp hs).1 (hf i)

theorem find_bound {pat s : List α} {i : ℕ} (hp : pat ≠ []) (h : find pat s = some i) :
    i + pat.length ≤ s.length := ((find_eq_some_iff hp).mp h).1.bound hp

/-- A search result splits the list; nothing to the left of the split holds the word. -/
theorem find_split {pat s : List α} {i : ℕ} (hp : pat ≠ []) (h : find pat s = some i) :
    ∃ left right, s = left ++ pat ++ right ∧ left.length = i ∧ Free pat left := by
  obtain ⟨ho, hm⟩ := (find_eq_some_iff hp).mp h
  have hb := ho.bound hp
  obtain ⟨left, right, rfl, rfl⟩ := (occurs_iff_split (by omega)).mp ho
  refine ⟨left, right, rfl, rfl, ?_⟩
  intro j hj
  have hj' := hj.bound hp
  have := List.length_pos_of_ne_nil hp
  apply hm j (by omega)
  rw [List.append_assoc]
  exact (occurs_append_left hj').mpr hj

theorem find_append_of_free {pat left right : List α} (hc : Cut pat left right) (hp : pat ≠ [])
    (hf : Free pat left) : find pat (left ++ right) = (find pat right).map (left.length + ·) := by
  cases hr : find pat right with
  | none =>
    rw [find_eq_none_iff hp] at hr
    exact (find_eq_none_iff hp).mpr ((hc.free_iff hp).mpr ⟨hf, hr⟩)
  | some j =>
    obtain ⟨ho, hm⟩ := (find_eq_some_iff hp).mp hr
    refine (find_eq_some_iff hp).mpr ⟨occurs_append_right.mpr ho, ?_⟩
    intro k hk hok
    rcases (hc.occurs_iff hp).mp hok with hl | ⟨l, rfl, hl⟩
    · exact hf k hl
    · exact hm l (by simp only at hk; omega) hl

theorem find_append_left {pat left : List α} (right : List α) {i : ℕ} (hp : pat ≠ [])
    (h : find pat left = some i) : find pat (left ++ right) = some i := by
  obtain ⟨ho, hm⟩ := (find_eq_some_iff hp).mp h
  have hb := ho.bound hp
  refine (find_eq_some_iff hp).mpr ⟨(occurs_append_left hb).mpr ho, ?_⟩
  intro j hj hoj
  exact hm j hj ((occurs_append_left (by omega)).mp hoj)

theorem find_take {pat s : List α} {i w : ℕ} (hp : pat ≠ []) (h : find pat s = some i) :
    find pat (s.take w) = if i + pat.length ≤ w then some i else none := by
  obtain ⟨ho, hm⟩ := (find_eq_some_iff hp).mp h
  split
  · next hw =>
    refine (find_eq_some_iff hp).mpr ⟨(occurs_take hp).mpr ⟨ho, hw⟩, ?_⟩
    exact fun j hj hoj => hm j hj ((occurs_take hp).mp hoj).1
  · next hw =>
    apply (find_eq_none_iff hp).mpr
    intro j hoj
    obtain ⟨hoj, hjw⟩ := (occurs_take hp).mp hoj
    exact hm j (by omega) hoj

theorem find_self_append {pat : List α} (right : List α) (hp : pat ≠ []) :
    find pat (pat ++ right) = some 0 := by
  refine (find_eq_some_iff hp).mpr ⟨List.prefix_append pat right, ?_⟩
  intro j hj
  exact absurd hj (Nat.not_lt_zero j)

/-- The search stops exactly at a word put behind a text that does not hold it. -/
theorem find_at {pat left : List α} (right : List α) (hp : HeadUnique pat)
    (hf : Free pat left) : find pat (left ++ (pat ++ right)) = some left.length := by
  obtain ⟨c, cs, rfl, hc⟩ := id hp
  rw [find_append_of_free (cut_of_head hp (by simp)) hp.ne_nil hf,
    find_self_append right hp.ne_nil]
  simp

end Search

end ByteSearch
