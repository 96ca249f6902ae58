import Mathlib.Algebra.Group.Basic
import Mathlib.Algebra.Group.Nat.Defs
import Mathlib.Data.Finmap

/-! # Triples over a heap of blocks

An assertion says what a part of the heap is. Assertions about disjoint parts are multiplied, and
form a commutative monoid. A triple leaves everything outside of its assertion as it is. -/
namespace SeparationTriples

variable {ε β α γ : Type}

abbrev Heap (β : Type) := Finmap fun _ : ℕ => β

/-! ## Assertions -/

def Assertion (β : Type) := Heap β → Prop

instance : Mul (Assertion β) where
  mul P Q h := ∃ left right : Heap β, left.Disjoint right ∧ h = left ∪ right ∧ P left ∧ Q right

/-- Nothing at all. -/
instance : One (Assertion β) where
  one h := h = ∅

protected theorem mul_comm_holds {P Q : Assertion β} {h : Heap β} (hPQ : (P * Q) h) :
    (Q * P) h := by
  obtain ⟨left, right, hdisjoint, rfl, hP, hQ⟩ := hPQ
  exact ⟨right, left, hdisjoint.symm, Finmap.union_comm_of_disjoint hdisjoint, hQ, hP⟩

protected theorem mul_assoc_holds {P Q R : Assertion β} {h : Heap β} (hPQR : (P * Q * R) h) :
    (P * (Q * R)) h := by
  obtain ⟨both, right, hdisjoint, rfl, ⟨left, middle, hinner, rfl, hP, hQ⟩, hR⟩ := hPQR
  obtain ⟨houter, hbehind⟩ := (Finmap.disjoint_union_left left middle right).mp hdisjoint
  refine ⟨left, middle ∪ right, ?_, Finmap.union_assoc, hP, middle, right, hbehind, rfl, hQ, hR⟩
  exact (Finmap.disjoint_union_right left middle right).mpr ⟨hinner, houter⟩

instance : CommMonoid (Assertion β) where
  mul_comm P Q := by
    funext h
    exact propext ⟨SeparationTriples.mul_comm_holds, SeparationTriples.mul_comm_holds⟩
  mul_assoc P Q R := by
    funext h
    refine propext ⟨SeparationTriples.mul_assoc_holds, ?_⟩
    intro hPQR
    have hturned := SeparationTriples.mul_comm_holds hPQR
    have hmoved := SeparationTriples.mul_assoc_holds hturned
    have hagain := SeparationTriples.mul_assoc_holds (SeparationTriples.mul_comm_holds hmoved)
    exact SeparationTriples.mul_comm_holds hagain
  one_mul P := by
    funext h
    refine propext ⟨?_, ?_⟩
    · rintro ⟨left, right, -, rfl, rfl, hP⟩
      rw [Finmap.empty_union]
      exact hP
    · intro hP
      exact ⟨∅, h, Finmap.disjoint_empty h, Finmap.empty_union.symm, rfl, hP⟩
  mul_one P := by
    funext h
    refine propext ⟨?_, ?_⟩
    · rintro ⟨left, right, -, rfl, hP, rfl⟩
      rw [Finmap.union_empty]
      exact hP
    · intro hP
      exact ⟨h, ∅, (Finmap.disjoint_empty h).symm, Finmap.union_empty.symm, hP, rfl⟩


def cell (a : ℕ) (b : β) : Assertion β := fun h => h = Finmap.singleton a b

def fact (p : Prop) : Assertion β := fun h => p ∧ h = ∅

def any {ι : Type} (P : ι → Assertion β) : Assertion β := fun h => ∃ i, P i h

def Entails (P Q : Assertion β) : Prop := ∀ h, P h → Q h

section Assertions

variable {ι : Type} {P P' Q Q' R : Assertion β} {p : Prop}

theorem Entails.refl (P : Assertion β) : Entails P P := fun _ hP => hP

theorem entails_of_eq (h : P = Q) : Entails P Q := h ▸ Entails.refl P

theorem Entails.trans (h : Entails P Q) (h' : Entails Q R) : Entails P R :=
  fun m hP => h' m (h m hP)

theorem entails_mul (h : Entails P P') (h' : Entails Q Q') : Entails (P * Q) (P' * Q') := by
  rintro m ⟨left, right, hdisjoint, hunion, hP, hQ⟩
  exact ⟨left, right, hdisjoint, hunion, h left hP, h' right hQ⟩

theorem entails_any {P : ι → Assertion β} (i : ι) : Entails (P i) (any P) := fun _ hP => ⟨i, hP⟩

theorem fact_mul_holds {m : Heap β} : (fact p * P : Assertion β) m ↔ p ∧ P m := by
  constructor
  · rintro ⟨left, right, -, rfl, ⟨hp, rfl⟩, hP⟩
    rw [Finmap.empty_union]
    exact ⟨hp, hP⟩
  · rintro ⟨hp, hP⟩
    exact ⟨∅, m, Finmap.disjoint_empty m, Finmap.empty_union.symm, ⟨hp, rfl⟩, hP⟩

theorem entails_fact (hp : p) : Entails P (fact p * P) :=
  fun _ hP => fact_mul_holds.mpr ⟨hp, hP⟩

theorem entails_impossible : Entails (P * fact False) Q := by
  intro m hm
  rw [mul_comm, fact_mul_holds] at hm
  exact hm.1.elim

theorem any_mul (P : ι → Assertion β) (Q : Assertion β) : any P * Q = any fun i => P i * Q := by
  funext m
  refine propext ⟨?_, ?_⟩
  · rintro ⟨left, right, hdisjoint, hunion, ⟨i, hP⟩, hQ⟩
    exact ⟨i, left, right, hdisjoint, hunion, hP, hQ⟩
  · rintro ⟨i, left, right, hdisjoint, hunion, hP, hQ⟩
    exact ⟨left, right, hdisjoint, hunion, ⟨i, hP⟩, hQ⟩

end Assertions

/-! ## Commands -/

/-- What the allocator was called for, with the address of the block. -/
inductive HeapCall where
  | alloc (a : ℕ)
  | free (a : ℕ)
  deriving DecidableEq, Repr

/-- The blocks in use, and the calls that led to them, the last one first. -/
structure Memory (β : Type) where
  heap : Heap β
  past : List HeapCall

abbrev Command (ε β α : Type) := StateT (Memory β) (Except ε) α

/-- Which address a new block gets, whatever happened before and whatever is in use. -/
structure Allocator where
  pick : List HeapCall → Finset ℕ → ℕ
  fresh : ∀ past used, pick past used ∉ used

def alloc (A : Allocator) (b : β) : Command ε β ℕ := fun m =>
  let a := A.pick m.past m.heap.keys
  .ok (a, ⟨m.heap.insert a b, .alloc a :: m.past⟩)

def read (fault : ε) (a : ℕ) : Command ε β β := fun m =>
  match m.heap.lookup a with
  | some b => .ok (b, m)
  | none => .error fault

def write (fault : ε) (a : ℕ) (b : β) : Command ε β Unit := fun m =>
  match m.heap.lookup a with
  | some _ => .ok ((), { m with heap := m.heap.insert a b })
  | none => .error fault

/-- A block can be freed once. -/
def free (fault : ε) (a : ℕ) : Command ε β Unit := fun m =>
  match m.heap.lookup a with
  | some _ => .ok ((), ⟨m.heap.erase a, .free a :: m.past⟩)
  | none => .error fault

/-! ## Triples -/

/-- From a heap with a part that fits the first assertion the command comes to its end, and then
that part fits the second one. The rest is as it was. -/
def Triple (P : Assertion β) (c : Command ε β α) (Q : α → Assertion β) : Prop :=
  ∀ (part frame : Heap β) (past : List HeapCall), part.Disjoint frame → P part →
    ∃ a part' past', c ⟨part ∪ frame, past⟩ = .ok (a, ⟨part' ∪ frame, past'⟩) ∧
      part'.Disjoint frame ∧ Q a part'

section Rules

variable {ι : Type} {P P' F : Assertion β} {Q Q' : α → Assertion β} {R : γ → Assertion β}
  {c : Command ε β α} {f : α → Command ε β γ} {a : ℕ} {b b' : β} {fault : ε} {p : Prop}

theorem triple_pure {x : α} (h : Entails P (Q x)) : Triple (ε := ε) P (pure x) Q :=
  fun part _ past hdisjoint hP => ⟨x, part, past, rfl, hdisjoint, h part hP⟩

theorem Triple.bind (h : Triple P c Q) (hf : ∀ x, Triple (Q x) (f x) R) :
    Triple P (c >>= f) R := by
  intro part frame past hdisjoint hP
  obtain ⟨x, middle, later, hc, hmiddle, hQ⟩ := h part frame past hdisjoint hP
  obtain ⟨y, part', past', hfx, hpart', hR⟩ := hf x middle frame later hmiddle hQ
  refine ⟨y, part', past', ?_, hpart', hR⟩
  change (c ⟨part ∪ frame, past⟩ >>= fun s => f s.1 s.2) = _
  rw [hc]
  exact hfx

theorem Triple.frame (h : Triple P c Q) (F : Assertion β) :
    Triple (P * F) c fun x => Q x * F := by
  rintro part frame past hdisjoint ⟨left, right, hparts, rfl, hP, hF⟩
  obtain ⟨hleft, hright⟩ := (Finmap.disjoint_union_left left right frame).mp hdisjoint
  have hframe := (Finmap.disjoint_union_right left right frame).mpr ⟨hparts, hleft⟩
  obtain ⟨x, left', past', hc, hleft', hQ⟩ := h left (right ∪ frame) past hframe hP
  obtain ⟨hparts', hframe'⟩ := (Finmap.disjoint_union_right left' right frame).mp hleft'
  refine ⟨x, left' ∪ right, past', ?_, ?_, left', right, hparts', rfl, hQ, hF⟩
  · rw [Finmap.union_assoc, hc, Finmap.union_assoc]
  · exact (Finmap.disjoint_union_left left' right frame).mpr ⟨hframe', hright⟩

theorem Triple.weaken (h : Triple P c Q) (hP : Entails P' P) (hQ : ∀ x, Entails (Q x) (Q' x)) :
    Triple P' c Q' := by
  intro part frame past hdisjoint hP'
  obtain ⟨x, part', past', hc, hpart', hx⟩ := h part frame past hdisjoint (hP part hP')
  exact ⟨x, part', past', hc, hpart', hQ x part' hx⟩

theorem Triple.of_eq (hP : P' = P) (h : Triple P c Q) : Triple P' c Q := hP ▸ h

theorem triple_any {P : ι → Assertion β} (h : ∀ i, Triple (P i) c Q) : Triple (any P) c Q :=
  fun part frame past hdisjoint ⟨i, hP⟩ => h i part frame past hdisjoint hP

theorem triple_fact (h : p → Triple P c Q) : Triple (fact p * P) c Q := by
  intro part frame past hdisjoint hP
  obtain ⟨hp, hP⟩ := fact_mul_holds.mp hP
  exact h hp part frame past hdisjoint hP

/-- What an assertion says beside the heap may be used. -/
theorem triple_learn (hp : ∀ m, P m → p) (h : p → Triple P c Q) : Triple P c Q :=
  fun part frame past hdisjoint hP => h (hp part hP) part frame past hdisjoint hP

/-- Nothing has to be shown where nothing can hold. -/
theorem triple_impossible : Triple (P * fact False) c Q := by
  rw [mul_comm]
  exact triple_fact False.elim

theorem union_lookup {part : Heap β} (hpart : cell a b part) (frame : Heap β) :
    (part ∪ frame).lookup a = some b := by
  have hmem : a ∈ part := hpart ▸ (Finmap.mem_singleton a a b).mpr rfl
  rw [Finmap.lookup_union_left hmem, hpart]
  exact Finmap.lookup_singleton_eq

theorem cell_disjoint {part frame : Heap β} (hpart : cell a b part) :
    part.Disjoint frame ↔ a ∉ frame := by
  rw [hpart]
  constructor
  · exact fun hdisjoint => hdisjoint a ((Finmap.mem_singleton a a b).mpr rfl)
  · rintro hfresh x hx
    rw [Finmap.mem_singleton] at hx
    rwa [hx]

theorem triple_alloc (A : Allocator) (b : β) :
    Triple (ε := ε) 1 (alloc A b) fun a => cell a b := by
  rintro part frame past - rfl
  have hfresh := A.fresh past frame.keys
  have hcell : cell (A.pick past frame.keys) b (Finmap.singleton (A.pick past frame.keys) b) := rfl
  refine ⟨A.pick past frame.keys, Finmap.singleton (A.pick past frame.keys) b,
    .alloc (A.pick past frame.keys) :: past, ?_, (cell_disjoint hcell).mpr hfresh, rfl⟩
  have hinsert : Finmap.insert (A.pick past frame.keys) b (∅ ∪ frame) =
      Finmap.singleton (A.pick past frame.keys) b ∪ frame := Finmap.insert_union
  rw [Finmap.empty_union] at hinsert
  rw [Finmap.empty_union, alloc, hinsert]

theorem triple_read : Triple (cell a b) (read fault a) fun x => fact (x = b) * cell a b := by
  intro part frame past hdisjoint hpart
  refine ⟨b, part, past, ?_, hdisjoint, fact_mul_holds.mpr ⟨rfl, hpart⟩⟩
  rw [read, union_lookup hpart]

theorem triple_write : Triple (cell a b) (write fault a b') fun _ => cell a b' := by
  intro part frame past hdisjoint hpart
  have hcell : cell a b' (Finmap.singleton a b') := rfl
  refine ⟨(), Finmap.singleton a b', past, ?_, ?_, rfl⟩
  · rw [write, union_lookup hpart]
    simp only
    rw [Finmap.insert_union, hpart, Finmap.insert_singleton_eq]
  · exact (cell_disjoint hcell).mpr ((cell_disjoint hpart).mp hdisjoint)

theorem triple_free : Triple (cell a b) (free fault a) fun _ => 1 := by
  intro part frame past hdisjoint hpart
  refine ⟨(), ∅, .free a :: past, ?_, Finmap.disjoint_empty frame, rfl⟩
  rw [free, union_lookup hpart]
  simp only
  rw [Finmap.empty_union]
  refine congrArg (fun h => Except.ok ((), Memory.mk h _)) (Finmap.ext_lookup fun x => ?_)
  have hfresh := (cell_disjoint hpart).mp hdisjoint
  by_cases hx : x = a
  · rw [hx, Finmap.lookup_erase, Finmap.lookup_eq_none.mpr hfresh]
  · rw [Finmap.lookup_erase_ne hx, Finmap.lookup_union_right]
    rw [hpart, Finmap.mem_singleton]
    exact hx

/-! ## One command of a program -/

theorem bind_frame (h : Triple P c Q) (hf : ∀ x, Triple (Q x * F) (f x) R) :
    Triple (P * F) (c >>= f) R := (h.frame F).bind hf

theorem bind_fresh (h : Triple 1 c Q) (hf : ∀ x, Triple (Q x * F) (f x) R) :
    Triple F (c >>= f) R := by
  have hbind := bind_frame h hf
  rwa [one_mul] at hbind

theorem bind_alloc {A : Allocator} {f : ℕ → Command ε β γ}
    (hf : ∀ a, Triple (cell a b * F) (f a) R) : Triple F (alloc A b >>= f) R :=
  bind_fresh (triple_alloc A b) hf

theorem bind_read {f : β → Command ε β γ} (hf : Triple (cell a b * F) (f b) R) :
    Triple (cell a b * F) (read fault a >>= f) R := by
  refine bind_frame triple_read fun x => ?_
  rw [mul_assoc]
  refine triple_fact fun hx => ?_
  rw [hx]
  exact hf

theorem bind_write {f : Unit → Command ε β γ} (hf : Triple (cell a b' * F) (f ()) R) :
    Triple (cell a b * F) (write fault a b' >>= f) R :=
  bind_frame triple_write fun _ => hf

theorem bind_free {f : Unit → Command ε β γ} (hf : Triple F (f ()) R) :
    Triple (cell a b * F) (free fault a >>= f) R := by
  refine bind_frame triple_free fun _ => ?_
  rw [one_mul]
  exact hf

/-- A whole program: what is left of the heap is the frame, and what the last assertion says. -/
theorem Triple.run (h : Triple 1 c Q) (m : Heap β) (past : List HeapCall) :
    ∃ x part past', c ⟨m, past⟩ = .ok (x, ⟨part ∪ m, past'⟩) ∧ part.Disjoint m ∧ Q x part := by
  obtain ⟨x, part, past', hc, hdisjoint, hQ⟩ := h ∅ m past (Finmap.disjoint_empty m) rfl
  rw [Finmap.empty_union] at hc
  exact ⟨x, part, past', hc, hdisjoint, hQ⟩

end Rules

end SeparationTriples
