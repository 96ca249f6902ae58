import Mathlib.Data.List.Basic

/-! # Runs that answer, and what they refine

A concrete step may fail and answers otherwise; an abstract step always answers. Steps that
answer alike and keep a relation between the states make whole runs do the same. -/
namespace RunRefinement

variable {ε σ τ α β : Type*}

def run (step : σ → α → Except ε (β × σ)) (s : σ) : List α → Except ε (List β × σ)
  | [] => .ok ([], s)
  | a :: more => do
    let (b, s) ← step s a
    let (answers, s) ← run step s more
    return (b :: answers, s)

/-- The run of a step that never fails. -/
def spec (next : τ → α → β × τ) (t : τ) : List α → List β × τ
  | [] => ([], t)
  | a :: more =>
    let (b, t) := next t a
    let (answers, t) := spec next t more
    (b :: answers, t)

/-- Every request meets a condition in the state that it finds. -/
def Along (step : σ → α → Except ε (β × σ)) (P : σ → α → Prop) (s : σ) : List α → Prop
  | [] => True
  | a :: more => P s a ∧ ∀ b t, step s a = .ok (b, t) → Along step P t more

theorem along_of_forall {step : σ → α → Except ε (β × σ)} {P : σ → α → Prop} {requests : List α}
    (h : ∀ a ∈ requests, ∀ s, P s a) (s : σ) : Along step P s requests := by
  induction requests generalizing s with
  | nil => trivial
  | cons a more ih =>
    refine ⟨h a List.mem_cons_self s, ?_⟩
    intro b t _
    exact ih (fun c hc => h c (List.mem_cons_of_mem a hc)) t

section Refine

variable {step : σ → α → Except ε (β × σ)} {next : τ → α → β × τ} {R : σ → τ → Prop}
  {P : σ → α → Prop}

theorem run_refines
    (hstep : ∀ s t a, R s t → P s a → ∃ s', step s a = .ok ((next t a).1, s') ∧ R s' (next t a).2)
    {s : σ} {t : τ} {requests : List α} (hR : R s t) (hP : Along step P s requests) :
    ∃ s', run step s requests = .ok ((spec next t requests).1, s') ∧
      R s' (spec next t requests).2 := by
  induction requests generalizing s t with
  | nil => exact ⟨s, rfl, hR⟩
  | cons a more ih =>
    obtain ⟨hhere, hbehind⟩ := hP
    obtain ⟨u, hu, hRu⟩ := hstep s t a hR hhere
    obtain ⟨v, hv, hRv⟩ := ih hRu (hbehind _ u hu)
    refine ⟨v, ?_, hRv⟩
    simp only [run, hu, hv, bind, Except.bind]
    rfl

end Refine

section Spec

variable {next : τ → α → β × τ} {t : τ}

theorem spec_append (past more : List α) :
    spec next t (past ++ more) =
      ((spec next t past).1 ++ (spec next (spec next t past).2 more).1,
        (spec next (spec next t past).2 more).2) := by
  induction past generalizing t with
  | nil => rfl
  | cons a past ih =>
    rw [List.cons_append, spec, spec]
    simp only [ih, List.cons_append]

theorem spec_length (t : τ) (requests : List α) :
    (spec next t requests).1.length = requests.length := by
  induction requests generalizing t with
  | nil => rfl
  | cons a more ih => exact congrArg Nat.succ (ih (next t a).2)

theorem spec_snoc (past : List α) (a : α) :
    (spec next t (past ++ [a])).1.getLast? = some (next (spec next t past).2 a).1 := by
  rw [spec_append]
  simp [spec]

end Spec

end RunRefinement
