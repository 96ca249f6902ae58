import Mathlib.Data.List.Infix
import Mathlib.Data.List.TakeWhile
import Mathlib.Tactic.Common

/-! # Non-empty fields between delimiters

Runs of delimiters count as one and delimiters at the ends do not make empty fields, so
the fields say nothing about how many delimiters a list holds. -/
namespace DelimitedFields

section Words

variable {α : Type*} {p q : α → Bool} {d : α} {s w : List α}

/-- The non-empty parts of a list between all delimiters of a kind. -/
def words (p : α → Bool) (s : List α) : List (List α) := (s.splitOnP p).filter (· ≠ [])

theorem words_nil : words p [] = [] := by simp [words]

theorem words_append_delim (hd : p d = true) (x y : List α) :
    words p (x ++ d :: y) = words p x ++ words p y := by
  rw [words, List.splitOnP_append_cons x y hd, List.filter_append]
  rfl

theorem words_cons_delim (hd : p d = true) (s : List α) : words p (d :: s) = words p s := by
  have h := words_append_delim hd [] s
  rwa [words_nil] at h

theorem words_of_front {front : List α} (h : ∀ x ∈ front, p x = true) (s : List α) :
    words p (front ++ s) = words p s := by
  induction front with
  | nil => rfl
  | cons x front ih =>
    rw [List.cons_append, words_cons_delim (h x List.mem_cons_self)]
    exact ih fun y hy => h y (List.mem_cons_of_mem x hy)

theorem words_of_clean (hw : ∀ x ∈ w, p x = false) (hne : w ≠ []) : words p w = [w] := by
  simp [words, List.splitOnP_eq_singleton hw, hne]

theorem words_congr (h : ∀ x ∈ s, p x = q x) : words p s = words q s := by
  have hsplit : s.splitOnP p = s.splitOnP q := by
    induction s with
    | nil => rfl
    | cons x s ih =>
      rw [List.splitOnP_cons_eq_if_modifyHead, List.splitOnP_cons_eq_if_modifyHead,
        h x List.mem_cons_self, ih fun y hy => h y (List.mem_cons_of_mem x hy)]
  rw [words, words, hsplit]

theorem splitOnP_map {β : Type*} {q : β → Bool} (f : α → β) (s : List α) :
    (s.map f).splitOnP q = (s.splitOnP (q ∘ f)).map (List.map f) := by
  induction s with
  | nil => rfl
  | cons x s ih =>
    rw [List.map_cons, List.splitOnP_cons_eq_if_modifyHead, List.splitOnP_cons_eq_if_modifyHead, ih,
      Function.comp_apply]
    split
    · rfl
    · cases s.splitOnP (q ∘ f) with
      | nil => rfl
      | cons w ws => rfl

theorem words_map {β : Type*} {q : β → Bool} (f : α → β) (s : List α) :
    words q (s.map f) = (words (q ∘ f) s).map (List.map f) := by
  rw [words, words, splitOnP_map, List.filter_map]
  congr 2
  funext w
  simp

theorem words_dropWhile (s : List α) : words p (s.dropWhile p) = words p s := by
  induction s with
  | nil => rfl
  | cons x s ih =>
    cases hx : p x with
    | true => rw [List.dropWhile_cons_of_pos hx, ih, words_cons_delim hx]
    | false => rw [List.dropWhile_cons_of_neg (by rw [hx]; exact Bool.false_ne_true)]

/-- The first word, if there is one, and the words behind the delimiter that ends it. -/
theorem words_cases (p : α → Bool) (s : List α) :
    (s.dropWhile p = [] ∧ words p s = []) ∨
    (s.dropWhile p ≠ [] ∧ words p s =
      (s.dropWhile p).takeWhile (fun x => !p x) ::
        words p (((s.dropWhile p).dropWhile fun x => !p x).drop 1)) := by
  rw [← words_dropWhile s]
  cases hs : s.dropWhile p with
  | nil => exact Or.inl ⟨rfl, words_nil⟩
  | cons c cs =>
    refine Or.inr ⟨List.cons_ne_nil c cs, ?_⟩
    have hc : p c = false := by
      have hhead := List.head?_dropWhile_not p s
      rw [hs] at hhead
      simpa using hhead
    have hclean : ∀ x ∈ (c :: cs).takeWhile (fun x => !p x), p x = false := by
      intro x hx
      simpa using List.mem_takeWhile_imp hx
    have hne : (c :: cs).takeWhile (fun x => !p x) ≠ [] := by simp [hc]
    rcases hrest : (c :: cs).dropWhile (fun x => !p x) with _ | ⟨d, more⟩
    · have hsplit := List.takeWhile_append_dropWhile (p := fun x => !p x) (l := c :: cs)
      rw [hrest, List.append_nil] at hsplit
      rw [hsplit] at hclean hne ⊢
      rw [words_of_clean hclean hne, List.drop_nil, words_nil]
    · have hd : p d = true := by
        have hhead := List.head?_dropWhile_not (fun x => !p x) (c :: cs)
        rw [hrest] at hhead
        simpa using hhead
      have hsplit := List.takeWhile_append_dropWhile (p := fun x => !p x) (l := c :: cs)
      rw [hrest] at hsplit
      calc words p (c :: cs)
          = words p ((c :: cs).takeWhile (fun x => !p x) ++ d :: more) := by rw [hsplit]
        _ = words p ((c :: cs).takeWhile fun x => !p x) ++ words p more :=
          words_append_delim hd _ _
        _ = _ := by rw [words_of_clean hclean hne]; rfl

end Words

section Strtok

variable {α : Type*} [BEq α]

/-- `strtok`: the token, if there is one, and where the next call goes on. -/
def strtok (s delim : List α) : Option (List α) × List α :=
  let s := s.dropWhile (delim.contains ·)
  if s = [] then (none, [])
  else (some (s.takeWhile fun c => !delim.contains c),
    (s.dropWhile fun c => !delim.contains c).drop 1)

theorem strtok_words (s delim : List α) :
    (strtok s delim).1 = (words (delim.contains ·) s).head? ∧
      words (delim.contains ·) (strtok s delim).2 = (words (delim.contains ·) s).tail := by
  rcases words_cases (delim.contains ·) s with ⟨hnil, hwords⟩ | ⟨hne, hwords⟩
  · rw [strtok, if_pos hnil, hwords]
    exact ⟨rfl, words_nil⟩
  · rw [strtok, if_neg hne, hwords]
    exact ⟨rfl, rfl⟩

theorem strtok_shorter {s delim pch next : List α} (h : strtok s delim = (some pch, next)) :
    next.length < s.length := by
  by_cases hnil : s.dropWhile (delim.contains ·) = []
  · rw [strtok, if_pos hnil] at h
    cases h
  · rw [strtok, if_neg hnil] at h
    obtain ⟨-, rfl⟩ := Prod.mk.inj h
    have hpos := List.length_pos_of_ne_nil hnil
    have hle := (List.dropWhile_suffix (delim.contains ·) (l := s)).length_le
    have hrest := (List.dropWhile_suffix (fun c => !delim.contains c)
      (l := s.dropWhile (delim.contains ·))).length_le
    rw [List.length_drop]
    omega

end Strtok

variable {α : Type*} [DecidableEq α] {d : α}

def fields (d : α) (s : List α) : List (List α) := (s.splitOn d).filter (· ≠ [])

theorem fields_eq_words (d : α) (s : List α) : fields d s = words (· == d) s := rfl

@[simp] theorem fields_nil : fields d [] = [] := by simp [fields]

theorem fields_append_delim (x y : List α) :
    fields d (x ++ d :: y) = fields d x ++ fields d y :=
  words_append_delim (p := (· == d)) (beq_self_eq_true d) x y

@[simp] theorem fields_cons_delim (s : List α) : fields d (d :: s) = fields d s :=
  words_cons_delim (p := (· == d)) (beq_self_eq_true d) s

theorem fields_of_not_mem {w : List α} (hd : d ∉ w) (hne : w ≠ []) : fields d w = [w] := by
  simp [fields, List.splitOn_eq_singleton hd, hne]

theorem fields_replicate (n : ℕ) (s : List α) :
    fields d (List.replicate n d ++ s) = fields d s := by
  induction n with
  | zero => rfl
  | succ n ih => simp [List.replicate_succ, ih]

omit [DecidableEq α] in
/-- A list falls into the part in front of its first delimiter and the part behind it. -/
theorem front_unique {x y r s : List α} (hx : d ∉ x) (hy : d ∉ y)
    (h : x ++ d :: r = y ++ d :: s) : x = y ∧ r = s := by
  induction x generalizing y with
  | nil =>
    cases y with
    | nil => exact ⟨rfl, List.tail_eq_of_cons_eq h⟩
    | cons b y => exact absurd (List.head_eq_of_cons_eq h ▸ List.mem_cons_self) hy
  | cons a x ih =>
    cases y with
    | nil => exact absurd (List.head_eq_of_cons_eq h.symm ▸ List.mem_cons_self) hx
    | cons b y =>
      obtain rfl : a = b := List.head_eq_of_cons_eq h
      obtain ⟨rfl, hrest⟩ := ih (fun hm => hx (List.mem_cons_of_mem a hm))
        (fun hm => hy (List.mem_cons_of_mem a hm)) (List.tail_eq_of_cons_eq h)
      exact ⟨rfl, hrest⟩

def Closed (d : α) (rest : List α) : Prop := rest = [] ∨ ∃ more, rest = d :: more

theorem fields_word {w rest : List α} (hd : d ∉ w) (hne : w ≠ []) (hr : Closed d rest) :
    fields d (w ++ rest) = w :: fields d rest := by
  rcases hr with rfl | ⟨more, rfl⟩
  · simp [fields_of_not_mem hd hne]
  · simp [fields_append_delim, fields_of_not_mem hd hne]

theorem splitOn_head {s : List α} : ∃ w rest, s = w ++ rest ∧ d ∉ w ∧ Closed d rest := by
  induction s with
  | nil => exact ⟨[], [], rfl, List.not_mem_nil, Or.inl rfl⟩
  | cons x xs ih =>
    by_cases hx : x = d
    · exact ⟨[], x :: xs, rfl, List.not_mem_nil, Or.inr ⟨xs, by rw [hx]⟩⟩
    · obtain ⟨w, rest, rfl, hd, hr⟩ := ih
      refine ⟨x :: w, rest, rfl, ?_, hr⟩
      intro hm
      rcases List.mem_cons.mp hm with h | h
      · exact hx h.symm
      · exact hd h

omit [DecidableEq α] in
private theorem head_field_ne_nil {x : α} {xs v rest : List α} (hx : x ≠ d)
    (hs : x :: xs = v ++ rest) (hr : Closed d rest) : v ≠ [] := by
  rintro rfl
  rcases hr with rfl | ⟨more, rfl⟩
  · cases hs
  · exact hx (List.cons.inj hs).1

theorem fields_eq_cons {s w : List α} {ws : List (List α)} (h : fields d s = w :: ws) :
    ∃ n rest, s = List.replicate n d ++ (w ++ rest) ∧ w ≠ [] ∧ d ∉ w ∧ Closed d rest ∧
      fields d rest = ws := by
  induction s with
  | nil => simp at h
  | cons x xs ih =>
    by_cases hx : x = d
    · subst hx
      rw [fields_cons_delim] at h
      obtain ⟨n, rest, rfl, hrest⟩ := ih h
      exact ⟨n + 1, rest, by simp [List.replicate_succ], hrest⟩
    · obtain ⟨v, rest, hs, hd, hr⟩ := splitOn_head (d := d) (s := x :: xs)
      have hne : v ≠ [] := head_field_ne_nil hx hs hr
      rw [hs, fields_word hd hne hr] at h
      obtain ⟨rfl, hws⟩ := List.cons.inj h
      exact ⟨0, rest, by simpa using hs, hne, hd, hr, hws⟩

theorem Closed.fields_eq_cons {s w : List α} {ws : List (List α)} (hs : Closed d s)
    (h : fields d s = w :: ws) :
    ∃ n rest, s = List.replicate (n + 1) d ++ (w ++ rest) ∧ w ≠ [] ∧ d ∉ w ∧ Closed d rest ∧
      fields d rest = ws := by
  rcases hs with rfl | ⟨more, rfl⟩
  · simp at h
  · rw [fields_cons_delim] at h
    obtain ⟨n, rest, rfl, hrest⟩ := DelimitedFields.fields_eq_cons h
    exact ⟨n, rest, by simp [List.replicate_succ], hrest⟩

theorem mem_fields {s w : List α} (h : w ∈ fields d s) : w ≠ [] ∧ d ∉ w ∧ w <:+: s := by
  generalize hf : fields d s = ws at h
  induction ws generalizing s with
  | nil => simp at h
  | cons v vs ih =>
    obtain ⟨n, rest, rfl, hne, hd, _, hvs⟩ := fields_eq_cons hf
    rcases List.mem_cons.mp h with rfl | h
    · exact ⟨hne, hd, List.replicate n d, rest, by simp⟩
    · obtain ⟨hne', hd', hi⟩ := ih hvs h
      exact ⟨hne', hd', hi.trans ⟨List.replicate n d ++ v, [], by simp⟩⟩

end DelimitedFields
