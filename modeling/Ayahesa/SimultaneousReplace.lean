import Ayahesa.ByteSearch
import Mathlib.Data.List.Find
import Mathlib.Data.List.Pairwise

/-! # Replacing several words at once and one after the other

A table gives each of its words a value. `expand` reads the text once and puts the value in the
place of every word it meets. A chain of replacements, one word at a time, does the same as long
as no word is met where an earlier value was put in. -/
namespace SimultaneousReplace

open ByteSearch

structure Entry (α : Type*) where
  word : List α
  value : List α
  deriving DecidableEq, Repr

variable {α : Type*} [DecidableEq α]

def hit (table : List (Entry α)) (s : List α) : Option (Entry α) :=
  table.find? fun e => e.word.isPrefixOf s

/-- The counter skips what a replaced word covers. -/
def expandFrom (table : List (Entry α)) : ℕ → List α → List α
  | _, [] => []
  | k + 1, _ :: xs => expandFrom table k xs
  | 0, x :: xs =>
    match hit table (x :: xs) with
    | some e => e.value ++ expandFrom table (e.word.length - 1) xs
    | none => x :: expandFrom table 0 xs

def expand (table : List (Entry α)) (s : List α) : List α := expandFrom table 0 s

/-- One word at a time, in the order of the table. -/
def chain (table : List (Entry α)) (s : List α) : List α :=
  table.foldl (fun s e => expand [e] s) s

variable {table : List (Entry α)} {e : Entry α} {s t : List α}

theorem expandFrom_eq (table : List (Entry α)) (k : ℕ) (s : List α) :
    expandFrom table k s = expand table (s.drop k) := by
  induction k generalizing s with
  | zero => rfl
  | succ k ih =>
    cases s with
    | nil => rfl
    | cons x xs => exact ih xs

theorem hit_eq_some (h : hit table s = some e) : e ∈ table ∧ e.word <+: s :=
  ⟨List.mem_of_find?_eq_some h, List.isPrefixOf_iff_prefix.mp (by simpa using List.find?_some h)⟩

theorem hit_eq_none_iff : hit table s = none ↔ ∀ e ∈ table, ¬ e.word <+: s := by
  simp [hit, List.find?_eq_none]

theorem expand_of_free (h : ∀ e ∈ table, Free e.word s) : expand table s = s := by
  induction s with
  | nil => rfl
  | cons x xs ih =>
    have hnone : hit table (x :: xs) = none := hit_eq_none_iff.mpr fun e he hp => h e he 0 hp
    have hxs : expand table xs = xs :=
      ih fun e he => (h e he).of_isInfix (List.suffix_cons x xs).isInfix
    rw [expand, expandFrom, hnone]
    exact congrArg (x :: ·) hxs

private theorem hit_append {x : α} {xs : List α} (h : ∀ e ∈ table, Cut e.word (x :: xs) t) :
    hit table (x :: xs ++ t) = hit table (x :: xs) := by
  refine List.find?_congr fun e he => Bool.eq_iff_iff.mpr ?_
  rw [List.isPrefixOf_iff_prefix, List.isPrefixOf_iff_prefix]
  by_cases hl : e.word.length ≤ (x :: xs).length
  · exact occurs_append_left (i := 0) (by omega)
  · have hno : ¬ e.word <+: x :: xs ++ t := h e he 0 (by simp) (by omega)
    exact ⟨fun hp => absurd hp hno, fun hp => absurd hp.length_le hl⟩

/-- A text is expanded part by part where no word crosses from one part into the other. -/
theorem expand_append (h : ∀ e ∈ table, Cut e.word s t) :
    expand table (s ++ t) = expand table s ++ expand table t := by
  suffices hfrom : ∀ k ≤ s.length,
      expandFrom table k (s ++ t) = expandFrom table k s ++ expand table t from
    hfrom 0 (Nat.zero_le _)
  induction s with
  | nil =>
    intro k hk
    obtain rfl : k = 0 := Nat.le_zero.mp hk
    rfl
  | cons x xs ih =>
    have hxs : ∀ e ∈ table, Cut e.word xs t := by
      intro e he i hi hlt ho
      exact h e he (i + 1) (by simpa using hi) (by simp; omega) (by simpa [Occurs] using ho)
    intro k hk
    cases k with
    | succ k => exact ih hxs k (by simpa using hk)
    | zero =>
      have hhit := hit_append h
      simp only [List.cons_append] at hhit ⊢
      rw [expandFrom, expandFrom, hhit]
      cases he : hit table (x :: xs) with
      | none => simp [ih hxs 0 (Nat.zero_le _)]
      | some e =>
        have hle := (hit_eq_some he).2.length_le
        simp only [List.length_cons] at hle
        simp [ih hxs (e.word.length - 1) (by omega)]

theorem expand_found {i : ℕ} (hne : e.word ≠ []) (h : find e.word s = some i) :
    expand [e] s = s.take i ++ e.value ++ expand [e] (s.drop (i + e.word.length)) := by
  induction s generalizing i with
  | nil => simp [find, hne] at h
  | cons x xs ih =>
    by_cases h0 : e.word.isPrefixOf (x :: xs)
    · obtain rfl : 0 = i := by simpa [find, h0] using h
      obtain ⟨n, hn⟩ : ∃ n, e.word.length = n + 1 :=
        ⟨e.word.length - 1, by have := List.length_pos_of_ne_nil hne; omega⟩
      have hhit : hit [e] (x :: xs) = some e := by simp [hit, h0]
      rw [expand, expandFrom, hhit]
      simp [expandFrom_eq, hn]
    · simp only [find, h0, Bool.false_eq_true, if_false, Option.map_eq_some_iff] at h
      obtain ⟨k, hk, rfl⟩ := h
      have hhit : hit [e] (x :: xs) = none := by simp [hit, h0]
      rw [expand, expandFrom, hhit]
      have hxs := ih hk
      simp only [expand] at hxs ⊢
      simp [hxs, Nat.add_right_comm]

theorem first_word (hne : ∀ e ∈ table, e.word ≠ []) (s : List α) :
    (∀ e ∈ table, Free e.word s) ∨ ∃ left e right, e ∈ table ∧ s = left ++ (e.word ++ right) ∧
      ∀ f ∈ table, Free f.word left := by
  by_cases h : ∃ i, ∃ e ∈ table, Occurs e.word s i
  · obtain ⟨e, he, ho⟩ := Nat.find_spec h
    have hb := ho.bound (hne e he)
    obtain ⟨left, right, hs, hl⟩ := (occurs_iff_split (by omega)).mp ho
    refine Or.inr ⟨left, e, right, he, by rw [hs, List.append_assoc], fun f hf j hj => ?_⟩
    have hj' := hj.bound (hne f hf)
    have hpos := List.length_pos_of_ne_nil (hne f hf)
    refine Nat.find_min h (show j < Nat.find h by omega) ⟨f, hf, ?_⟩
    rw [hs, List.append_assoc]
    exact (occurs_append_left hj').mpr hj
  · exact Or.inl fun e he i ho => h ⟨i, e, he, ho⟩

omit [DecidableEq α] in
/-- The words start with a common mark that is not found again in them, and none of them is the
beginning of another. -/
structure Separable (mark : α) (table : List (Entry α)) : Prop where
  head : ∀ e ∈ table, ∃ cs, e.word = mark :: cs ∧ mark ∉ cs
  apart : table.Pairwise fun e f => ¬ e.word <+: f.word ∧ ¬ f.word <+: e.word

namespace Separable

variable {mark : α} {f : Entry α} {more : List (Entry α)}

section Words

omit [DecidableEq α]

theorem headUnique (h : Separable mark table) (he : e ∈ table) : HeadUnique e.word := by
  obtain ⟨cs, hcs, hmark⟩ := h.head e he
  exact ⟨mark, cs, hcs, hmark⟩

theorem same_head (h : Separable mark table) (he : e ∈ table) (hf : f ∈ table)
    (right : List α) : (e.word ++ right).head? = f.word.head? := by
  obtain ⟨cs, hcs, _⟩ := h.head e he
  obtain ⟨ds, hds, _⟩ := h.head f hf
  rw [hcs, hds]
  rfl

theorem cut (h : Separable mark table) (he : e ∈ table) (hf : f ∈ table)
    (left right : List α) : Cut f.word left (e.word ++ right) :=
  cut_of_head (h.headUnique hf) (h.same_head he hf right)

theorem eq_of_prefix (h : Separable mark table) (he : e ∈ table) (hf : f ∈ table)
    (hef : e.word <+: f.word) : e = f := by
  by_contra hne
  have : Std.Symm fun e f : Entry α => ¬ e.word <+: f.word ∧ ¬ f.word <+: e.word :=
    ⟨fun _ _ hab => hab.symm⟩
  exact (h.apart.forall he hf hne).1 hef

theorem eq_of_begin (h : Separable mark table) (he : e ∈ table) (hf : f ∈ table)
    (hes : e.word <+: s) (hfs : f.word <+: s) : e = f := by
  rcases List.prefix_or_prefix_of_prefix hes hfs with hp | hp
  · exact h.eq_of_prefix he hf hp
  · exact (h.eq_of_prefix hf he hp).symm

theorem not_occurs_in (h : Separable mark table) (he : e ∈ table) (hf : f ∈ table) (hne : f ≠ e)
    {right : List α} {i : ℕ} (hi : i < e.word.length) : ¬ Occurs f.word (e.word ++ right) i := by
  have hhead := h.same_head he hf []
  rw [List.append_nil] at hhead
  exact not_occurs_in_word (h.headUnique hf) (h.headUnique he) hhead.symm
    (fun hp => hne (h.eq_of_prefix hf he hp)) (fun hp => hne (h.eq_of_prefix he hf hp).symm) hi

theorem of_append (h : Separable mark (table ++ more)) : Separable mark table :=
  ⟨fun e he => h.head e (List.mem_append_left _ he), (List.pairwise_append.mp h.apart).1⟩

theorem ne_last (h : Separable mark (table ++ [e])) (hf : f ∈ table) : f ≠ e := by
  rintro rfl
  exact ((List.pairwise_append.mp h.apart).2.2 f hf f List.mem_cons_self).1 List.prefix_rfl

end Words

theorem expand_word (h : Separable mark table) (he : e ∈ table) (right : List α) :
    expand table (e.word ++ right) = e.value ++ expand table right := by
  have hhit : hit table (e.word ++ right) = some e := by
    cases hf : hit table (e.word ++ right) with
    | none => exact absurd (List.prefix_append _ _) (hit_eq_none_iff.mp hf e he)
    | some f =>
      obtain ⟨hmem, hp⟩ := hit_eq_some hf
      rw [h.eq_of_begin hmem he hp (List.prefix_append _ _)]
  obtain ⟨cs, hcs, _⟩ := h.head e he
  rw [hcs, List.cons_append] at hhit ⊢
  rw [expand, expandFrom, hhit]
  simp [expandFrom_eq, hcs]

theorem expand_before (h : Separable mark table) (he : e ∈ table) (left right : List α) :
    expand table (left ++ (e.word ++ right)) =
      expand table left ++ (e.value ++ expand table right) := by
  rw [expand_append fun f hf => h.cut he hf left right, h.expand_word he]

theorem expand_last (h : Separable mark (table ++ [e])) (left right : List α) :
    expand table (left ++ (e.word ++ right)) =
      expand table left ++ (e.word ++ expand table right) := by
  have he : e ∈ table ++ [e] := by simp
  have hcut : ∀ f ∈ table, Cut f.word e.word right := fun f hf i hi _ =>
    h.not_occurs_in he (List.mem_append_left _ hf) (h.ne_last hf) hi
  have hfree : ∀ f ∈ table, Free f.word e.word := by
    intro f hf i ho
    have hmem := List.mem_append_left [e] hf
    have hb := ho.bound (h.headUnique hmem).ne_nil
    have hpos := (h.headUnique hmem).length_pos
    have ho' : Occurs f.word (e.word ++ []) i := by rwa [List.append_nil]
    exact h.not_occurs_in he hmem (h.ne_last hf) (by omega) ho'
  rw [expand_append fun f hf => h.cut he (List.mem_append_left _ hf) left right,
    expand_append hcut, expand_of_free hfree]

end Separable

/-- Where the words of `past` were replaced, the word of `e` is not met: neither in a value nor
across an edge of it. -/
def Untouched (past : List (Entry α)) (e : Entry α) (s : List α) : Prop :=
  ∀ f ∈ past, ∀ left right, s = left ++ (f.word ++ right) →
    ∀ i, Occurs e.word (expand past left ++ (f.value ++ expand past right)) i →
      i + e.word.length ≤ (expand past left).length ∨
        (expand past left ++ f.value).length ≤ i

/-- No replacement of the chain meets its word where an earlier one has put in a value. -/
def Undisturbed (table : List (Entry α)) (s : List α) : Prop :=
  ∀ past e more, table = past ++ e :: more → Untouched past e s

theorem Untouched.tail {past : List (Entry α)} {front out right : List α}
    (hfront : ∀ t, expand past (front ++ t) = out ++ expand past t)
    (h : Untouched past e (front ++ right)) : Untouched past e right := by
  rintro f hf left' right' rfl i ho
  have hshift := h f hf (front ++ left') right' (List.append_assoc _ _ _).symm (out.length + i)
  rw [hfront, List.append_assoc] at hshift
  rcases hshift (occurs_append_right.mpr ho) with hi | hi
  · exact Or.inl (by simp only [List.length_append] at hi; omega)
  · exact Or.inr (by simp only [List.length_append] at hi ⊢; omega)

/-- Up to the end of the first value that was put in the word is not met, nor across that end. -/
theorem Untouched.behind {mark : α} {past : List (Entry α)} {g : Entry α} {left right : List α}
    (h : Separable mark (past ++ [e])) (hu : Untouched past e (left ++ (g.word ++ right)))
    (hg : g ∈ past) (hleft : ∀ f ∈ past ++ [e], Free f.word left) :
    Free e.word (left ++ g.value) ∧ Cut e.word (left ++ g.value) (expand past right) := by
  have he : e ∈ past ++ [e] := by simp
  have hkept : expand past left = left :=
    expand_of_free fun f hf => hleft f (List.mem_append_left _ hf)
  have hmiss : ∀ i, Occurs e.word ((left ++ g.value) ++ expand past right) i →
      (left ++ g.value).length ≤ i := by
    intro i ho
    have hi := hu g hg left right rfl i
    rw [hkept, ← List.append_assoc] at hi
    rcases hi ho with hi | hi
    · rw [List.append_assoc] at ho
      exact absurd ((occurs_append_left hi).mp ho) (hleft e he i)
    · exact hi
  constructor
  · intro i ho
    have hb := ho.bound (h.headUnique he).ne_nil
    have hpos := (h.headUnique he).length_pos
    have := hmiss i ((occurs_append_left hb).mpr ho)
    omega
  · intro i hi _ ho
    exact absurd (hmiss i ho) (not_le.mpr hi)

theorem expand_step {mark : α} {past : List (Entry α)} (h : Separable mark (past ++ [e]))
    (hu : Untouched past e s) : expand [e] (expand past s) = expand (past ++ [e]) s := by
  have hpast : Separable mark past := h.of_append
  have hlast : Separable mark [e] :=
    ⟨fun f hf => h.head f (List.mem_append_right _ hf), List.pairwise_singleton _ _⟩
  -- on the length: the text behind the leftmost word is shorter
  induction hn : s.length using Nat.strong_induction_on generalizing s with
  | h n ih =>
    rcases first_word (fun f hf => (h.headUnique hf).ne_nil) s with
      hfree | ⟨left, g, right, hg, rfl, hleft⟩
    · have hfree_past : ∀ f ∈ past, Free f.word s := fun f hf =>
        hfree f (List.mem_append_left _ hf)
      have hfree_last : ∀ f ∈ [e], Free f.word s := fun f hf =>
        hfree f (List.mem_append_right _ hf)
      rw [expand_of_free hfree_past, expand_of_free hfree_last, expand_of_free hfree]
    · have hpos := (h.headUnique hg).length_pos
      have hkept : expand past left = left :=
        expand_of_free fun f hf => hleft f (List.mem_append_left _ hf)
      have hright : ∀ {out}, (∀ t, expand past (left ++ (g.word ++ t)) = out ++ expand past t) →
          expand [e] (expand past right) = expand (past ++ [e]) right := by
        intro out hout
        have hu' : Untouched past e ((left ++ g.word) ++ right) := by rwa [List.append_assoc]
        have hfront : ∀ t, expand past ((left ++ g.word) ++ t) = out ++ expand past t := by
          intro t
          rw [List.append_assoc, hout]
        refine ih right.length ?_ (hu'.tail hfront) rfl
        rw [← hn]
        simp only [List.length_append]
        omega
      rw [h.expand_before hg, expand_of_free hleft]
      rcases List.mem_append.mp hg with hgp | hge
      · have hout := fun t => hpast.expand_before hgp left t
        rw [hkept] at hout
        obtain ⟨hnone, hcut⟩ := hu.behind h hgp hleft
        rw [hout right, ← List.append_assoc, expand_append (List.forall_mem_singleton.mpr hcut),
          expand_of_free (List.forall_mem_singleton.mpr hnone),
          hright fun t => by rw [hout t, List.append_assoc], List.append_assoc]
      · obtain rfl := List.mem_singleton.mp hge
        have hout := fun t => h.expand_last left t
        rw [hkept] at hout
        have hleft_last : ∀ f ∈ [g], Free f.word left := fun f hf =>
          hleft f (List.mem_append_right _ hf)
        rw [hout right, hlast.expand_before List.mem_cons_self, expand_of_free hleft_last,
          hright fun t => by rw [hout t, List.append_assoc]]

/-- Without the mark in any value, and with no part of a word directly in front of a word, nothing
new is formed. -/
structure Unmarked (mark : α) (table : List (Entry α)) (s : List α) : Prop where
  value : ∀ f ∈ table, mark ∉ f.value
  front : ∀ e ∈ table, ∀ f ∈ table, ∀ w ∈ e.word.inits, w ≠ [] → w ≠ e.word →
    ¬ (w ++ f.word) <:+: s

omit [DecidableEq α] in
theorem suffix_append_cases {w : List α} (h : w <:+ s ++ t) :
    (∃ v, v ≠ [] ∧ v <:+ s ∧ w = v ++ t) ∨ w <:+ t := by
  obtain ⟨u, hu⟩ := h
  rcases List.append_eq_append_iff.mp hu with ⟨v, hs, hw⟩ | ⟨v, _, ht⟩
  · by_cases hv : v = []
    · subst hv
      exact Or.inr ⟨[], hw⟩
    · exact Or.inl ⟨v, hv, ⟨u, hs.symm⟩, hw⟩
  · exact Or.inr ⟨v, ht.symm⟩

/-- A beginning of a word at the end of an expanded text was there before. -/
theorem suffix_of_expand {mark : α} {past : List (Entry α)} {w cs left : List α}
    (h : Separable mark past) (hvalue : ∀ f ∈ past, mark ∉ f.value)
    (hfront : ∀ f ∈ past, ∀ v, v <+: w → v ≠ [] → ¬ (v ++ f.word) <:+: left)
    (hw : w <+: mark :: cs) (hsuffix : w <:+ expand past left) : w <:+ left := by
  -- on the length: what is behind the leftmost word is shorter
  induction hn : left.length using Nat.strong_induction_on generalizing left with
  | h n ih =>
    rcases first_word (fun f hf => (h.headUnique hf).ne_nil) left with
      hfree | ⟨l, g, r, hg, rfl, hl⟩
    · rwa [expand_of_free hfree] at hsuffix
    · have hpos := (h.headUnique hg).length_pos
      rw [h.expand_before hg, expand_of_free hl] at hsuffix
      have hr : r <:+ l ++ (g.word ++ r) := ⟨l ++ g.word, List.append_assoc _ _ _⟩
      have hout : w <:+ g.value ++ expand past r := by
        rcases suffix_append_cases hsuffix with ⟨v, hv0, ⟨u, rfl⟩, hv⟩ | hs
        · refine absurd ⟨u, r, ?_⟩ (hfront g hg v (hv ▸ List.prefix_append _ _) hv0)
          simp only [List.append_assoc]
        · exact hs
      have hbehind : w <:+ expand past r := by
        rcases suffix_append_cases hout with ⟨v, hv0, hv, hwv⟩ | hs
        · have hvm : v <+: mark :: cs := (hwv ▸ List.prefix_append _ _).trans hw
          cases v with
          | nil => exact absurd rfl hv0
          | cons c v =>
            obtain rfl := (List.cons_prefix_cons.mp hvm).1
            exact absurd (hv.subset List.mem_cons_self) (hvalue g hg)
        · exact hs
      refine (ih r.length ?_ (fun f hf v hv hv0 hi => ?_) hbehind rfl).trans hr
      · rw [← hn]
        simp only [List.length_append]
        omega
      · exact hfront f hf v hv hv0 (hi.trans hr.isInfix)

omit [DecidableEq α] in
/-- Every word starts with the mark, so it is enough to look for the mark behind a part. -/
theorem unmarked_of_front {mark : α} (h : Separable mark table)
    (hvalue : ∀ f ∈ table, mark ∉ f.value)
    (hfront : ∀ e ∈ table, ∀ w ∈ e.word.inits, w ≠ [] → w ≠ e.word → ¬ (w ++ [mark]) <:+: s) :
    Unmarked mark table s where
  value := hvalue
  front := by
    intro e he f hf w hw hne hpart hin
    obtain ⟨cs, hcs, _⟩ := h.head f hf
    refine hfront e he w hw hne hpart (List.IsInfix.trans ?_ hin)
    rw [hcs]
    exact ⟨[], cs, by simp⟩

/-- Nothing is formed, so no replacement of the chain meets a value. -/
theorem undisturbed_of_unmarked {mark : α} (h : Separable mark table)
    (hu : Unmarked mark table s) : Undisturbed table s := by
  rintro past e more rfl f hf left right rfl i ho
  have he : e ∈ past ++ e :: more := by simp
  have hfm : f ∈ past ++ e :: more := List.mem_append_left _ hf
  obtain ⟨cs, hcs, _⟩ := h.head e he
  by_contra hnot
  rw [not_or, not_le, not_le, List.length_append] at hnot
  by_cases hi : i < (expand past left).length
  · -- the word starts in front of the value: its part there is at the end of `left` as well
    obtain ⟨w, hw⟩ : ∃ w, (expand past left).drop i = w := ⟨_, rfl⟩
    have hlen : w.length = (expand past left).length - i := by rw [← hw, List.length_drop]
    have hdrop : (expand past left ++ (f.value ++ expand past right)).drop i =
        w ++ (f.value ++ expand past right) := by
      rw [List.drop_append_of_le_length (by omega), hw]
    have hstart : e.word <+: w ++ (f.value ++ expand past right) := by
      rwa [Occurs, hdrop] at ho
    have hwe : w <+: e.word :=
      List.prefix_of_prefix_length_le (List.prefix_append _ _) hstart (by omega)
    have hproper : ∀ v, v <+: w → v ≠ [] → v ∈ e.word.inits ∧ v ≠ e.word := by
      intro v hv _
      refine ⟨(List.mem_inits v e.word).mpr (hv.trans hwe), ?_⟩
      rintro rfl
      have := hv.length_le
      omega
    have hw0 : w ≠ [] := by
      rintro rfl
      simp only [List.length_nil] at hlen
      omega
    have hleft : w <:+ left := by
      have hpast : Separable mark past := h.of_append
      have hwm : w <+: mark :: cs := hcs ▸ hwe
      refine suffix_of_expand hpast
        (fun g hg => hu.value g (List.mem_append_left _ hg)) (fun g hg v hv hv0 hin => ?_)
        hwm ⟨(expand past left).take i, by rw [← hw, List.take_append_drop]⟩
      obtain ⟨hinit, hne⟩ := hproper v hv hv0
      exact hu.front e he g (List.mem_append_left _ hg) v hinit hv0 hne
        (hin.trans (List.prefix_append _ _).isInfix)
    obtain ⟨hinit, hne⟩ := hproper w List.prefix_rfl hw0
    obtain ⟨u, rfl⟩ := hleft
    exact hu.front e he f hfm w hinit hw0 hne ⟨u, right, by simp only [List.append_assoc]⟩
  · -- the word starts in the value
    obtain ⟨k, rfl⟩ : ∃ k, i = (expand past left).length + k :=
      ⟨i - (expand past left).length, by omega⟩
    have hget := (occurs_append_right.mp ho).get (k := 0) (h.headUnique he).length_pos
    rw [Nat.add_zero, List.getElem?_append_left (by omega), hcs, List.getElem?_cons_zero] at hget
    exact hu.value f hfm (List.mem_of_getElem? hget)

theorem chain_eq_expand {mark : α} (h : Separable mark table) (hu : Undisturbed table s) :
    chain table s = expand table s := by
  suffices hpast : ∀ past more, table = past ++ more → chain past s = expand past s from
    hpast table [] (List.append_nil _).symm
  intro past
  induction past using List.reverseRecOn with
  | nil =>
    intro more _
    exact (expand_of_free fun e he => absurd he List.not_mem_nil).symm
  | append_singleton past e ih =>
    intro more hsplit
    have hsplit' : table = past ++ e :: more := by simpa using hsplit
    have hsep : Separable mark (past ++ [e]) := by
      rw [hsplit] at h
      exact h.of_append
    have hchain : chain (past ++ [e]) s = expand [e] (chain past s) := List.foldl_append
    rw [hchain, ih _ hsplit']
    exact expand_step hsep (hu past e more hsplit')

end SimultaneousReplace
