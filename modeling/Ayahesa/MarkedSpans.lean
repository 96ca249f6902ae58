import Ayahesa.ByteSearch
import Mathlib.Logic.Relation

/-! # Spans between two marks

A text is scanned from left to right. A span goes from an opening mark to the first closing mark
behind it. `removed` deletes the spans; a scan does so in place, with what it kept in front of
the rest, and is orderly as long as the first marks of the whole text are those of a span. -/
namespace MarkedSpans

open ByteSearch

structure Scan (α : Type*) where
  kept : List α
  rest : List α

variable {α : Type*} {opening closing d : List α} {s t : Scan α}

def Scan.text (s : Scan α) : List α := s.kept ++ s.rest

theorem Scan.rest_infix (s : Scan α) : s.rest <:+: s.text :=
  (List.suffix_append s.kept s.rest).isInfix

/-- The first marks of the whole text are those of the next span, which is deleted. -/
inductive Removes (opening closing : List α) : Scan α → Scan α → Prop where
  | span {kept front inside rest : List α} : Free opening (kept ++ front) →
      Free closing (kept ++ (front ++ (opening ++ inside))) →
      Removes opening closing ⟨kept, front ++ (opening ++ (inside ++ (closing ++ rest)))⟩
        ⟨kept ++ front, rest⟩

def Reaches (opening closing d : List α) (s : Scan α) : Prop :=
  Relation.ReflTransGen (Removes opening closing) ⟨[], d⟩ s

/-- Span after span is deleted until one of the marks is gone. -/
def Orderly (opening closing d : List α) : Prop :=
  ∃ s, Reaches opening closing d s ∧ (Free opening s.text ∨ Free closing s.text)

theorem Removes.rest_shorter (ho : opening ≠ []) (h : Removes opening closing s t) :
    t.rest.length < s.rest.length := by
  have hpos := List.length_pos_of_ne_nil ho
  cases h with
  | span _ _ =>
    simp only [List.length_append]
    omega

variable [DecidableEq α]

/-- At some point the first closing mark stands in front of the first opening mark. -/
def Stray (opening closing d : List α) : Prop :=
  ∃ s p q, Reaches opening closing d s ∧ find opening s.text = some p ∧
    find closing s.text = some q ∧ q + closing.length ≤ p

/-- At some point the first marks share bytes, or the first opening mark begins in what was kept,
so that a deletion made it. -/
def Touching (opening closing d : List α) : Prop :=
  ∃ s p q, Reaches opening closing d s ∧ find opening s.text = some p ∧
    find closing s.text = some q ∧ p < q + closing.length ∧
    (p < s.kept.length ∨ q < p + opening.length)

/-- A deletion goes from the first opening mark to the end of the first closing mark. -/
theorem Removes.marks (ho : HeadUnique opening) (hc : HeadUnique closing)
    (h : Removes opening closing s t) :
    ∃ p q, find opening s.text = some p ∧ find closing s.text = some q ∧ s.kept.length ≤ p ∧
      p + opening.length ≤ q ∧ t = ⟨s.text.take p, s.text.drop (q + closing.length)⟩ := by
  cases h with
  | @span kept front inside rest hopen hclose =>
    have hfront : kept ++ (front ++ (opening ++ (inside ++ (closing ++ rest)))) =
        (kept ++ front) ++ (opening ++ (inside ++ (closing ++ rest))) := by
      simp only [List.append_assoc]
    have hinside : kept ++ (front ++ (opening ++ (inside ++ (closing ++ rest)))) =
        (kept ++ (front ++ (opening ++ inside))) ++ (closing ++ rest) := by
      simp only [List.append_assoc]
    refine ⟨(kept ++ front).length, (kept ++ (front ++ (opening ++ inside))).length, ?_, ?_, ?_, ?_,
      ?_⟩
    · rw [Scan.text, hfront]
      exact find_at _ ho hopen
    · rw [Scan.text, hinside]
      exact find_at rest hc hclose
    · simp only [List.length_append]
      omega
    · simp only [List.length_append]
      omega
    · rw [Scan.text, ← List.drop_drop]
      nth_rewrite 1 [hfront]
      rw [hinside, List.take_left, List.drop_left, List.drop_left]

theorem Removes.unique {t' : Scan α} (ho : HeadUnique opening) (hc : HeadUnique closing)
    (h : Removes opening closing s t) (h' : Removes opening closing s t') : t = t' := by
  obtain ⟨p, q, hp, hq, _, _, rfl⟩ := h.marks ho hc
  obtain ⟨p', q', hp', hq', _, _, rfl⟩ := h'.marks ho hc
  rw [Option.some.inj (hp.symm.trans hp'), Option.some.inj (hq.symm.trans hq')]

theorem removes_of_marks {p q : ℕ} (ho : opening ≠ []) (hc : closing ≠ [])
    (hp : find opening s.text = some p) (hq : find closing s.text = some q)
    (hkept : s.kept.length ≤ p) (hpq : p + opening.length ≤ q) :
    ∃ t, Removes opening closing s t := by
  obtain ⟨kept, text⟩ := s
  obtain ⟨left, right, hleft, rfl, hopen⟩ := find_split ho hp
  obtain ⟨before, rest, hbefore, rfl, hclose⟩ := find_split hc hq
  obtain ⟨front, rfl⟩ : kept <+: left := by
    have hkept' : kept <+: kept ++ text := List.prefix_append kept text
    have hleft' : left <+: kept ++ text :=
      ⟨opening ++ right, by rw [← List.append_assoc]; exact hleft.symm⟩
    exact List.prefix_of_prefix_length_le hkept' hleft' hkept
  obtain ⟨inside, rfl⟩ : kept ++ front ++ opening <+: before := by
    have hmark : kept ++ front ++ opening <+: kept ++ text := ⟨right, hleft.symm⟩
    have hbefore' : before <+: kept ++ text :=
      ⟨closing ++ rest, by rw [← List.append_assoc]; exact hbefore.symm⟩
    apply List.prefix_of_prefix_length_le hmark hbefore'
    rw [List.length_append]
    exact hpq
  have htext : text = front ++ (opening ++ (inside ++ (closing ++ rest))) := by
    have hsplit : kept ++ text = kept ++ (front ++ (opening ++ (inside ++ (closing ++ rest)))) := by
      simpa only [Scan.text, List.append_assoc] using hbefore
    exact List.append_cancel_left hsplit
  subst htext
  exact ⟨_, .span hopen (by simpa only [List.append_assoc] using hclose)⟩

/-- Every text is scanned to its end, or to a stray mark, or to marks that touch. -/
theorem orderly_or (ho : opening ≠ []) (hc : closing ≠ []) (d : List α) :
    Orderly opening closing d ∨ Stray opening closing d ∨ Touching opening closing d := by
  suffices hall : ∀ n s, s.rest.length = n → Reaches opening closing d s →
      Orderly opening closing d ∨ Stray opening closing d ∨ Touching opening closing d from
    hall d.length ⟨[], d⟩ rfl .refl
  intro n
  induction n using Nat.strong_induction_on with
  | _ n ih =>
  intro s hn hs
  cases hp : find opening s.text with
  | none => exact Or.inl ⟨s, hs, Or.inl ((find_eq_none_iff ho).mp hp)⟩
  | some p =>
    cases hq : find closing s.text with
    | none => exact Or.inl ⟨s, hs, Or.inr ((find_eq_none_iff hc).mp hq)⟩
    | some q =>
      by_cases hstray : q + closing.length ≤ p
      · exact Or.inr (Or.inl ⟨s, p, q, hs, hp, hq, hstray⟩)
      by_cases htouch : p < s.kept.length ∨ q < p + opening.length
      · exact Or.inr (Or.inr ⟨s, p, q, hs, hp, hq, by omega, htouch⟩)
      rw [not_or, not_lt, not_lt] at htouch
      obtain ⟨t, ht⟩ := removes_of_marks ho hc hp hq htouch.1 htouch.2
      exact ih t.rest.length (hn ▸ ht.rest_shorter ho) t rfl (hs.tail ht)

theorem Orderly.not_touching (ho : HeadUnique opening) (hc : HeadUnique closing)
    (h : Orderly opening closing d) : ¬ Touching opening closing d := by
  rintro ⟨s', p, q, hs', hp, hq, _, htouch⟩
  obtain ⟨s, hs, hend⟩ := h
  have hstop : ∀ t, ¬ Removes opening closing s t := by
    intro t ht
    obtain ⟨p, q, hp, hq, _⟩ := ht.marks ho hc
    rcases hend with hfree | hfree
    · exact hfree p ((find_eq_some_iff ho.ne_nil).mp hp).1
    · exact hfree q ((find_eq_some_iff hc.ne_nil).mp hq).1
  have hstop' : ∀ t, ¬ Removes opening closing s' t := by
    intro t ht
    obtain ⟨p', q', hp', hq', hkept, hpq, _⟩ := ht.marks ho hc
    rw [hp] at hp'
    rw [hq] at hq'
    obtain rfl := Option.some.inj hp'
    obtain rfl := Option.some.inj hq'
    omega
  have hunique : Relator.RightUnique (Removes opening closing) :=
    fun _ _ _ h h' => h.unique ho hc h'
  have hsame : s = s' := by
    rcases Relation.ReflTransGen.total_of_right_unique hunique hs hs' with hjoin | hjoin
    · rcases hjoin.cases_head with heq | ⟨t, ht, _⟩
      · exact heq
      · exact absurd ht (hstop t)
    · rcases hjoin.cases_head with heq | ⟨t, ht, _⟩
      · exact heq.symm
      · exact absurd ht (hstop' t)
  subst hsame
  rcases hend with hfree | hfree
  · exact hfree p ((find_eq_some_iff ho.ne_nil).mp hp).1
  · exact hfree q ((find_eq_some_iff hc.ne_nil).mp hq).1

/-! ## The text without its spans -/

def removed (opening closing : List α) : ℕ → List α → List α
  | 0, s => s
  | n + 1, s =>
    match find opening s with
    | none => s
    | some p =>
      match find closing (s.drop (p + opening.length)) with
      | none => s
      | some q => s.take p ++
          removed opening closing n (s.drop (p + opening.length + (q + closing.length)))

theorem removed_length_le (n : ℕ) (d : List α) :
    (removed opening closing n d).length ≤ d.length := by
  induction n generalizing d with
  | zero => exact Nat.le_refl _
  | succ n ih =>
    rw [removed]
    split
    · exact Nat.le_refl _
    · next p _ =>
      split
      · exact Nat.le_refl _
      · next q _ =>
        have hrest := ih (d.drop (p + opening.length + (q + closing.length)))
        simp only [List.length_append, List.length_take, List.length_drop] at hrest ⊢
        omega

theorem removed_unopened (n : ℕ) (ho : opening ≠ []) (h : Free opening d) :
    removed opening closing n d = d := by
  cases n with
  | zero => rfl
  | succ n => rw [removed, (find_eq_none_iff ho).mpr h]

theorem removed_unclosed (n : ℕ) (hc : closing ≠ []) (h : Free closing d) :
    removed opening closing n d = d := by
  cases n with
  | zero => rfl
  | succ n =>
    rw [removed]
    split
    · rfl
    · next p _ =>
      have hfree : Free closing (d.drop (p + opening.length)) :=
        h.of_isInfix (List.drop_suffix _ d).isInfix
      rw [(find_eq_none_iff hc).mpr hfree]

theorem removed_span {front inside rest : List α} (n : ℕ) (ho : HeadUnique opening)
    (hc : HeadUnique closing) (hfront : Free opening front) (hinside : Free closing inside) :
    removed opening closing (n + 1) (front ++ (opening ++ (inside ++ (closing ++ rest)))) =
      front ++ removed opening closing n rest := by
  have hdrop : (front ++ (opening ++ (inside ++ (closing ++ rest)))).drop
      (front.length + opening.length) = inside ++ (closing ++ rest) := by
    rw [← List.drop_drop, List.drop_left, List.drop_left]
  have hrest : (front ++ (opening ++ (inside ++ (closing ++ rest)))).drop
      (front.length + opening.length + (inside.length + closing.length)) = rest := by
    rw [← List.drop_drop, hdrop, ← List.drop_drop, List.drop_left, List.drop_left]
  simp only [removed, find_at _ ho hfront, hdrop, find_at rest hc hinside, hrest, List.take_left]

theorem Removes.removed (ho : HeadUnique opening) (hc : HeadUnique closing)
    (h : Removes opening closing s t) (n : ℕ) :
    s.kept ++ removed opening closing (n + 1) s.rest =
      t.kept ++ removed opening closing n t.rest := by
  cases h with
  | @span kept front inside rest hopen hclose =>
    have hfront : Free opening front := hopen.of_isInfix (List.suffix_append _ _).isInfix
    have hinside : Free closing inside :=
      hclose.of_isInfix ⟨kept ++ (front ++ opening), [], by simp⟩
    rw [removed_span n ho hc hfront hinside, List.append_assoc]

theorem Reaches.removed (ho : HeadUnique opening) (hc : HeadUnique closing)
    (h : Reaches opening closing d s) :
    ∃ n, s.rest.length ≤ n ∧
      removed opening closing d.length d = s.kept ++ removed opening closing n s.rest := by
  induction h with
  | refl => exact ⟨d.length, Nat.le_refl _, rfl⟩
  | tail _ hstep ih =>
    obtain ⟨n, hn, heq⟩ := ih
    have hlt := hstep.rest_shorter ho.ne_nil
    obtain ⟨n, rfl⟩ : ∃ m, n = m + 1 := ⟨n - 1, by omega⟩
    exact ⟨n, by omega, heq.trans (hstep.removed ho hc n)⟩

theorem Reaches.text_removed (ho : HeadUnique opening) (hc : HeadUnique closing)
    (h : Reaches opening closing d s) (hend : Free opening s.text ∨ Free closing s.text) :
    s.text = MarkedSpans.removed opening closing d.length d := by
  obtain ⟨n, _, heq⟩ := h.removed ho hc
  rw [heq]
  rcases hend with hfree | hfree
  · rw [removed_unopened n ho.ne_nil (hfree.of_isInfix s.rest_infix)]
    rfl
  · rw [removed_unclosed n hc.ne_nil (hfree.of_isInfix s.rest_infix)]
    rfl

end MarkedSpans
