import Mathlib.Data.List.Infix
import Mathlib.Data.Multiset.DershowitzManna
import Mathlib.Order.WithBot
import Mathlib.Tactic.Abel

/-! # Texts made of the fragments of other texts

A text that has been rewritten from the left is a row of fragments, each closed by a separator,
and behind them the rest of the first text. A word without the separator lies in one fragment.
When the word makes room for a text of smaller rank than that fragment, the weight of the row
goes down. -/
namespace SplicedFragments

/-- What is left of a text; `origin` names the text. -/
structure Fragment (α ι : Type*) where
  origin : ι
  body : List α

variable {α ι : Type*} {z : α}

def flat (z : α) : List (Fragment α ι) → List α → List α
  | [], rest => rest
  | f :: fs, rest => f.body ++ z :: flat z fs rest

/-- Where a word lies whose end is behind `start`: in a fragment, across the beginning of the
first one, or at least with its end in the rest; then all of it lies there if anything is in
front. -/
inductive Located (z : α) (before : List α) (frags : List (Fragment α ι))
    (rest start word behind : List α) : Prop where
  | within (skipped : List (Fragment α ι)) {fs : List (Fragment α ι)} {f : Fragment α ι}
      {y : List α} :
      frags = skipped ++ f :: fs → behind = y ++ z :: flat z fs rest → y <:+ f.body →
      y.length < f.body.length → word <:+: f.body → Located z before frags rest start word behind
  | across {fs : List (Fragment α ι)} {f : Fragment α ι} {w y : List α} :
      frags = f :: fs → behind = y ++ z :: flat z fs rest → y <:+ f.body →
      y.length < f.body.length → before = start ++ w → w ++ f.body = word ++ y →
      Located z before frags rest start word behind
  | rest : behind <:+ rest → behind.length < rest.length →
      (before = [] ∨ frags ≠ [] → word <:+: rest) → Located z before frags rest start word behind

theorem Located.cons {frags : List (Fragment α ι)} {rest start word behind : List α}
    {before : List α} (h : Located z [] frags rest start word behind) (g : Fragment α ι)
    {start' : List α} : Located z before (g :: frags) rest start' word behind := by
  cases h with
  | @within skipped fs f y hf hb hy hlt hw =>
    exact .within (g :: skipped) (by rw [hf]; rfl) hb hy hlt hw
  | @across fs f w y hf hb hy hlt hw hword =>
    obtain ⟨_, rfl⟩ := List.append_eq_nil_iff.mp hw.symm
    have hin : word <:+: f.body := ⟨[], y, by simpa using hword.symm⟩
    exact .within [g] (by rw [hf]; rfl) hb hy hlt hin
  | rest hb hlt hin => exact .rest hb hlt fun _ => hin (.inl rfl)

theorem beside {a b p u q : List α} (hz : z ∉ u) (hne : u ≠ [])
    (h : a ++ z :: b = p ++ (u ++ q)) :
    (∃ m, a = p ++ (u ++ m) ∧ q = m ++ z :: b) ∨ ∃ m, b = m ++ (u ++ q) ∧ p = a ++ z :: m := by
  rcases List.append_eq_append_iff.mp h with ⟨m, rfl, hm⟩ | ⟨m, rfl, hm⟩
  · cases m with
    | nil =>
      obtain ⟨c, u, rfl⟩ := List.exists_cons_of_ne_nil hne
      rw [List.nil_append, List.cons_append, List.cons.injEq] at hm
      exact absurd (hm.1 ▸ List.mem_cons_self) hz
    | cons c m =>
      rw [List.cons_append, List.cons.injEq] at hm
      obtain ⟨rfl, rfl⟩ := hm
      exact Or.inr ⟨m, rfl, rfl⟩
  · rcases List.append_eq_append_iff.mp hm with ⟨l, rfl, hl⟩ | ⟨l, rfl, hl⟩
    · exact Or.inl ⟨l, rfl, hl⟩
    · cases l with
      | nil => exact Or.inl ⟨[], by simp, by simpa using hl.symm⟩
      | cons c l =>
        rw [List.cons_append, List.cons.injEq] at hl
        exact absurd (List.mem_append_right m (hl.1 ▸ List.mem_cons_self)) hz

theorem divide {a b p u q : List α} (h : a ++ b = p ++ (u ++ q)) :
    (∃ m, a = p ++ (u ++ m)) ∨ (∃ m, b = m ++ (u ++ q) ∧ p = a ++ m) ∨
      ∃ v w, w ≠ [] ∧ u = v ++ w ∧ a = p ++ v ∧ b = w ++ q := by
  rcases List.append_eq_append_iff.mp h with ⟨m, rfl, hm⟩ | ⟨m, rfl, hm⟩
  · exact Or.inr (Or.inl ⟨m, hm, rfl⟩)
  · rcases List.append_eq_append_iff.mp hm with ⟨l, rfl, _⟩ | ⟨l, rfl, hl⟩
    · exact Or.inl ⟨l, rfl⟩
    · cases l with
      | nil => exact Or.inl ⟨[], by simp⟩
      | cons c l => exact Or.inr (Or.inr ⟨m, c :: l, List.cons_ne_nil c l, rfl, rfl, hl⟩)

theorem locate {frags : List (Fragment α ι)} {before rest start word behind : List α}
    (hz : z ∉ word) (hne : word ≠ []) (h : before ++ flat z frags rest = start ++ (word ++ behind))
    (hlen : before.length < (start ++ word).length) :
    Located z before frags rest start word behind := by
  induction frags generalizing before start with
  | nil =>
    rw [flat] at h
    have hin : before = [] ∨ ([] : List (Fragment α ι)) ≠ [] → word <:+: rest := by
      rintro (rfl | hnil)
      · exact ⟨start, behind, by rw [List.append_assoc]; exact h.symm⟩
      · exact absurd rfl hnil
    rw [← List.append_assoc] at h
    rcases List.append_eq_append_iff.mp h with ⟨m, hm, hrest⟩ | ⟨m, hm, _⟩
    · refine Located.rest ⟨m, hrest.symm⟩ ?_ hin
      have := congrArg List.length hm
      rw [hrest]
      simp only [List.length_append] at this hlen ⊢
      omega
    · have := congrArg List.length hm
      simp only [List.length_append] at this hlen
      omega
  | cons f fs ih =>
    rw [flat, ← List.append_assoc] at h
    rcases beside hz hne h with ⟨y, hy, hbehind⟩ | ⟨m, hm, _⟩
    · -- the word ends in this fragment
      have hshort : y.length < f.body.length := by
        have := congrArg List.length hy
        simp only [List.length_append] at this hlen
        omega
      have hsuffix : y <:+ f.body := by
        have hall : y <:+ before ++ f.body := ⟨start ++ word, by rw [hy, List.append_assoc]⟩
        exact List.suffix_of_suffix_length_le hall (List.suffix_append _ _) hshort.le
      rcases List.append_eq_append_iff.mp hy with ⟨w, rfl, hw⟩ | ⟨w, rfl, hw⟩
      · have hin : word <:+: f.body := ⟨w, y, by rw [hw, List.append_assoc]⟩
        exact .within [] rfl hbehind hsuffix hshort hin
      · exact .across rfl hbehind hsuffix hshort rfl hw.symm
    · have hpos := List.length_pos_of_ne_nil hne
      have hloc : Located z [] fs rest m word behind :=
        ih hm (by rw [List.length_append, List.length_nil]; omega)
      exact hloc.cons f

/-! ## The weight of a row -/

section Weight

variable {ρ : Type*} [Preorder ρ] (rank : ι → ρ)

/-- Every letter counts with the rank of its text; the rest counts more than any text. -/
def weight (frags : List (Fragment α ι)) (rest : List α) : Multiset (WithTop ρ) :=
  (frags.map fun f => Multiset.replicate f.body.length (rank f.origin : WithTop ρ)).sum +
    Multiset.replicate rest.length ⊤

theorem replicate_lt (n : ℕ) {m k : ℕ} (hmk : m < k) {a b : WithTop ρ} (hab : a < b)
    (X Z : Multiset (WithTop ρ)) :
    (Multiset.replicate n a + (Multiset.replicate m b + X)).IsDershowitzMannaLT
      (Z + (Multiset.replicate k b + X)) := by
  obtain ⟨j, rfl⟩ : ∃ j, k = m + (j + 1) := ⟨k - m - 1, by omega⟩
  refine ⟨Multiset.replicate m b + X, Multiset.replicate n a,
    Z + Multiset.replicate (j + 1) b, ?_, add_comm _ _, ?_, ?_⟩
  · intro h
    have := congrArg Multiset.card h
    simp at this
  · rw [Multiset.replicate_add]
    abel
  · intro y hy
    refine ⟨b, ?_, (Multiset.eq_of_mem_replicate hy).symm ▸ hab⟩
    exact Multiset.mem_add.mpr (Or.inr (Multiset.mem_replicate.mpr ⟨by omega, rfl⟩))

/-- A text of smaller rank in the place of a word of a fragment. -/
theorem weight_within (skipped : List (Fragment α ι)) {fs : List (Fragment α ι)}
    {f g : Fragment α ι} {y rest : List α} (hy : y.length < f.body.length)
    (hrank : rank g.origin < rank f.origin) :
    (weight rank (g :: ⟨f.origin, y⟩ :: fs) rest).IsDershowitzMannaLT
      (weight rank (skipped ++ f :: fs) rest) := by
  have h := replicate_lt g.body.length hy (WithTop.coe_lt_coe.mpr hrank)
    ((fs.map fun f => Multiset.replicate f.body.length (rank f.origin : WithTop ρ)).sum +
      Multiset.replicate rest.length ⊤)
    (skipped.map fun f => Multiset.replicate f.body.length (rank f.origin : WithTop ρ)).sum
  simpa only [weight, List.map_cons, List.sum_cons, List.map_append, List.sum_append,
    add_assoc] using h

theorem weight_rest {frags : List (Fragment α ι)} {g : Fragment α ι} {y rest : List α}
    (hy : y.length < rest.length) :
    (weight rank [g] y).IsDershowitzMannaLT (weight rank frags rest) := by
  have h := replicate_lt g.body.length hy (WithTop.coe_lt_top (rank g.origin)) 0
    (frags.map fun f => Multiset.replicate f.body.length (rank f.origin : WithTop ρ)).sum
  simpa only [weight, List.map_cons, List.sum_cons, List.map_nil, List.sum_nil, add_zero] using h

end Weight

end SplicedFragments
