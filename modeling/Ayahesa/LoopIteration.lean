import Mathlib.Order.RelIso.Basic
import Mathlib.Order.WellFounded

/-! # Unbounded loops with early exit and faults

A loop is its body: one pass over the state either goes on, leaves with a final state,
or stops on a fault. `run` executes a bounded number of passes, so it is executable;
termination is the statement that some bound suffices. -/
namespace LoopIteration

inductive Step (σ : Type*) where
  | next (s : σ)
  | done (s : σ)
  deriving DecidableEq, Repr

variable {ε σ τ : Type*}

/-- `none` means that the loop is still running after the given number of passes. -/
def run (body : σ → Except ε (Step σ)) : ℕ → σ → Option (Except ε σ)
  | 0, _ => none
  | n + 1, s =>
    match body s with
    | .error e => some (.error e)
    | .ok (.done t) => some (.ok t)
    | .ok (.next t) => run body n t

def Ends (body : σ → Except ε (Step σ)) (s : σ) : Prop := ∃ n r, run body n s = some r

def Returns (body : σ → Except ε (Step σ)) (s t : σ) : Prop := ∃ n, run body n s = some (.ok t)

inductive Visits (body : σ → Except ε (Step σ)) (s : σ) : σ → Prop where
  | start : Visits body s s
  | step {t u} : Visits body s t → body t = .ok (.next u) → Visits body s u

variable {body : σ → Except ε (Step σ)}

theorem run_succ_error {n : ℕ} {s : σ} {e : ε} (h : body s = .error e) :
    run body (n + 1) s = some (.error e) := by simp [run, h]

theorem run_succ_done {n : ℕ} {s t : σ} (h : body s = .ok (.done t)) :
    run body (n + 1) s = some (.ok t) := by simp [run, h]

theorem run_succ_next {n : ℕ} {s t : σ} (h : body s = .ok (.next t)) :
    run body (n + 1) s = run body n t := by simp [run, h]

theorem run_mono {n m : ℕ} {s : σ} {r : Except ε σ} (h : run body n s = some r)
    (hm : n ≤ m) : run body m s = some r := by
  induction n generalizing m s with
  | zero => simp [run] at h
  | succ n ih =>
    obtain ⟨m, rfl⟩ : ∃ k, m = k + 1 := ⟨m - 1, by omega⟩
    rcases hb : body s with e | (t | t)
    · rw [run_succ_error hb] at h ⊢
      exact h
    · rw [run_succ_next hb] at h ⊢
      exact ih h (by omega)
    · rw [run_succ_done hb] at h ⊢
      exact h

theorem run_unique {n m : ℕ} {s : σ} {r q : Except ε σ} (hr : run body n s = some r)
    (hq : run body m s = some q) : r = q := by
  have hr' := run_mono hr (Nat.le_max_left n m)
  have hq' := run_mono hq (Nat.le_max_right n m)
  exact Option.some.inj (hr'.symm.trans hq')

theorem Returns.unique {s t u : σ} (ht : Returns body s t) (hu : Returns body s u) : t = u := by
  obtain ⟨n, hn⟩ := ht
  obtain ⟨m, hm⟩ := hu
  exact Except.ok.inj (run_unique hn hm)

theorem Returns.of_done {s t : σ} (h : body s = .ok (.done t)) : Returns body s t :=
  ⟨1, run_succ_done h⟩

theorem Returns.of_next {s t u : σ} (h : body s = .ok (.next t)) (ht : Returns body t u) :
    Returns body s u := by
  obtain ⟨n, hn⟩ := ht
  exact ⟨n + 1, by rw [run_succ_next h]; exact hn⟩

theorem returns_of_next_iff {s t u : σ} (h : body s = .ok (.next t)) :
    Returns body s u ↔ Returns body t u := by
  constructor
  · rintro ⟨n, hn⟩
    cases n with
    | zero => simp [run] at hn
    | succ n => exact ⟨n, by rw [run_succ_next h] at hn; exact hn⟩
  · exact Returns.of_next h

theorem Returns.cases {s t : σ} (h : Returns body s t) :
    body s = .ok (.done t) ∨ ∃ u, body s = .ok (.next u) ∧ Returns body u t := by
  obtain ⟨n, hn⟩ := h
  cases n with
  | zero => simp [run] at hn
  | succ n =>
    rcases hb : body s with e | (u | u)
    · rw [run_succ_error hb] at hn
      simp at hn
    · rw [run_succ_next hb] at hn
      exact Or.inr ⟨u, rfl, n, hn⟩
    · rw [run_succ_done hb] at hn
      obtain rfl : u = t := by simpa using hn
      exact Or.inl rfl

theorem Visits.trans {s t u : σ} (hst : Visits body s t) (htu : Visits body t u) :
    Visits body s u := by
  induction htu with
  | start => exact hst
  | step _ hb ih => exact ih.step hb

theorem Returns.of_visits {s t u : σ} (hst : Visits body s t) (hu : Returns body t u) :
    Returns body s u := by
  induction hst with
  | start => exact hu
  | step _ hb ih => exact ih (hu.of_next hb)

/-- A run that returns does so from a visited state whose body leaves the loop. -/
theorem Returns.exists_done {s t : σ} (h : Returns body s t) :
    ∃ u, Visits body s u ∧ body u = .ok (.done t) := by
  obtain ⟨n, hn⟩ := h
  induction n generalizing s with
  | zero => simp [run] at hn
  | succ n ih =>
    rcases hb : body s with e | (u | u)
    · rw [run_succ_error hb] at hn
      simp at hn
    · rw [run_succ_next hb] at hn
      obtain ⟨v, hv, hd⟩ := ih hn
      exact ⟨v, (Visits.start.step hb).trans hv, hd⟩
    · rw [run_succ_done hb] at hn
      obtain rfl : u = t := by simpa using hn
      exact ⟨s, .start, hb⟩

theorem visits_invariant {Inv : σ → Prop} (hstep : ∀ s t, Inv s → body s = .ok (.next t) → Inv t)
    {s t : σ} (hs : Inv s) (h : Visits body s t) : Inv t := by
  induction h with
  | start => exact hs
  | step _ hb ih => exact hstep _ _ ih hb

/-- Partial correctness of a loop: an invariant at the head and a postcondition on leaving. -/
theorem Returns.invariant {Inv Post : σ → Prop}
    (hstep : ∀ s t, Inv s → body s = .ok (.next t) → Inv t)
    (hdone : ∀ s t, Inv s → body s = .ok (.done t) → Post t)
    {s t : σ} (hs : Inv s) (h : Returns body s t) : Post t := by
  obtain ⟨u, hu, hd⟩ := h.exists_done
  exact hdone u t (visits_invariant hstep hs hu) hd

theorem run_error_iff {s : σ} {e : ε} :
    (∃ n, run body n s = some (.error e)) ↔ ∃ u, Visits body s u ∧ body u = .error e := by
  constructor
  · rintro ⟨n, hn⟩
    induction n generalizing s with
    | zero => simp [run] at hn
    | succ n ih =>
      rcases hb : body s with q | (t | t)
      · rw [run_succ_error hb] at hn
        obtain rfl : q = e := by simpa using hn
        exact ⟨s, .start, hb⟩
      · rw [run_succ_next hb] at hn
        obtain ⟨u, hu, he⟩ := ih hn
        exact ⟨u, (Visits.start.step hb).trans hu, he⟩
      · rw [run_succ_done hb] at hn
        simp at hn
  · rintro ⟨u, hu, he⟩
    have hback : ∀ t, Visits body s t → (∃ n, run body n t = some (.error e)) →
        ∃ n, run body n s = some (.error e) := by
      intro t ht
      induction ht with
      | start => exact id
      | step _ hb ih =>
        rintro ⟨n, hn⟩
        exact ih ⟨n + 1, by rw [run_succ_next hb]; exact hn⟩
    exact hback u hu ⟨1, run_succ_error he⟩

/-- A loop whose passes descend along a well-founded relation on some measure ends. -/
theorem ends_of_measure {μ : Type*} {r : μ → μ → Prop} (hr : WellFounded r)
    (Inv : σ → μ → Prop)
    (hstep : ∀ s m t, Inv s m → body s = .ok (.next t) → ∃ k, r k m ∧ Inv t k)
    {s : σ} {m : μ} (hs : Inv s m) : Ends body s := by
  induction m using hr.induction generalizing s with
  | h m ih =>
    rcases hb : body s with e | (t | t)
    · exact ⟨1, _, run_succ_error hb⟩
    · obtain ⟨k, hk, ht⟩ := hstep s m t hs hb
      obtain ⟨n, q, hn⟩ := ih k hk ht
      exact ⟨n + 1, q, by rw [run_succ_next hb]; exact hn⟩
    · exact ⟨1, _, run_succ_done hb⟩

/-- A loop whose every visited state goes on never ends. -/
theorem not_ends_of_invariant (Inv : σ → Prop)
    (hstep : ∀ s, Inv s → ∃ t, body s = .ok (.next t) ∧ Inv t) {s : σ} (hs : Inv s) :
    ¬ Ends body s := by
  rintro ⟨n, r, hn⟩
  induction n generalizing s with
  | zero => simp [run] at hn
  | succ n ih =>
    obtain ⟨t, hb, ht⟩ := hstep s hs
    rw [run_succ_next hb] at hn
    exact ih ht hn

/-- How the outcomes of two passes correspond: `R` holds while both go on, `Q` when both leave. -/
inductive StepRel (R Q : σ → τ → Prop) : Except ε (Step σ) → Except ε (Step τ) → Prop where
  | error (e) : StepRel R Q (.error e) (.error e)
  | next {s t} : R s t → StepRel R Q (.ok (.next s)) (.ok (.next t))
  | done {s t} : Q s t → StepRel R Q (.ok (.done s)) (.ok (.done t))

theorem StepRel.mono {R R' Q Q' : σ → τ → Prop} {x : Except ε (Step σ)} {y : Except ε (Step τ)}
    (h : StepRel R Q x y) (hR : ∀ s t, R s t → R' s t) (hQ : ∀ s t, Q s t → Q' s t) :
    StepRel R' Q' x y := by
  cases h with
  | error e => exact .error e
  | next hr => exact .next (hR _ _ hr)
  | done hq => exact .done (hQ _ _ hq)

inductive OutcomeRel (R : σ → τ → Prop) : Option (Except ε σ) → Option (Except ε τ) → Prop where
  | running : OutcomeRel R none none
  | error (e) : OutcomeRel R (some (.error e)) (some (.error e))
  | returned {s t} : R s t → OutcomeRel R (some (.ok s)) (some (.ok t))

def andThen (x : Option (Except ε σ)) (f : σ → Option (Except ε τ)) : Option (Except ε τ) :=
  match x with
  | none => none
  | some (.error e) => some (.error e)
  | some (.ok s) => f s

theorem andThen_eq_ok_iff {x : Option (Except ε σ)} {f : σ → Option (Except ε τ)} {t : τ} :
    andThen x f = some (.ok t) ↔ ∃ s, x = some (.ok s) ∧ f s = some (.ok t) := by
  rcases x with _ | e | s
  · simp [andThen]
  · simp [andThen]
  · simp [andThen]

theorem andThen_returns {x : Option (Except ε σ)} {f : σ → Option (Except ε τ)} {s : σ}
    (hx : x = some (.ok s)) (hf : ∃ t, f s = some (.ok t)) : ∃ t, andThen x f = some (.ok t) := by
  obtain ⟨t, ht⟩ := hf
  exact ⟨t, andThen_eq_ok_iff.mpr ⟨s, hx, ht⟩⟩

theorem andThen_eq_error_iff {x : Option (Except ε σ)} {f : σ → Option (Except ε τ)} {e : ε} :
    andThen x f = some (.error e) ↔
      x = some (.error e) ∨ ∃ s, x = some (.ok s) ∧ f s = some (.error e) := by
  rcases x with _ | q | s
  · simp [andThen]
  · simp [andThen]
  · simp [andThen]

/-- An outcome that depends on a number of passes, and that more passes do not change. -/
def Settles (x : ℕ → Option (Except ε σ)) : Prop := ∀ n m r, x n = some r → n ≤ m → x m = some r

theorem settles_const (x : Option (Except ε σ)) : Settles fun _ => x := fun _ _ _ h _ => h

theorem run_settles (s : σ) : Settles fun n => run body n s := fun _ _ _ h hm => run_mono h hm

theorem Settles.unique {x : ℕ → Option (Except ε σ)} {n m : ℕ} {r q : Except ε σ}
    (hx : Settles x) (hr : x n = some r) (hq : x m = some q) : r = q := by
  have hr' := hx n _ r hr (Nat.le_max_left n m)
  have hq' := hx m _ q hq (Nat.le_max_right n m)
  exact Option.some.inj (hr'.symm.trans hq')

section Sequence

variable {x : ℕ → Option (Except ε σ)} {f : ℕ → σ → Option (Except ε τ)}

theorem Settles.andThen (hx : Settles x) (hf : ∀ s, Settles fun n => f n s) :
    Settles fun n => LoopIteration.andThen (x n) (f n) := by
  intro n m r h hm
  cases hn : x n with
  | none => simp [LoopIteration.andThen, hn] at h
  | some q =>
    have hlater := hx n m q hn hm
    cases q with
    | error e =>
      simp only [LoopIteration.andThen, hn, hlater] at h ⊢
      exact h
    | ok s =>
      simp only [LoopIteration.andThen, hn, hlater] at h ⊢
      exact hf s n m r h hm

end Sequence

theorem OutcomeRel.andThen {υ : Type*} {R : σ → σ → Prop} {Q : τ → υ → Prop}
    {x y : Option (Except ε σ)} {f : σ → Option (Except ε τ)} {g : σ → Option (Except ε υ)}
    (h : OutcomeRel R x y) (hfg : ∀ s t, R s t → OutcomeRel Q (f s) (g t)) :
    OutcomeRel Q (LoopIteration.andThen x f) (LoopIteration.andThen y g) := by
  cases h with
  | running => exact .running
  | error e => exact .error e
  | returned hr => exact hfg _ _ hr

theorem OutcomeRel.refl {R : σ → σ → Prop} (h : ∀ s, R s s) (x : Option (Except ε σ)) :
    OutcomeRel R x x := by
  cases x with
  | none => exact .running
  | some r =>
    cases r with
    | error e => exact .error e
    | ok s => exact .returned (h s)

theorem OutcomeRel.eq {x y : Option (Except ε σ)} (h : OutcomeRel Eq x y) : x = y := by
  cases h with
  | running => rfl
  | error e => rfl
  | returned hr => rw [hr]

/-- Lockstep simulation: related states make the same number of passes to related outcomes. -/
theorem run_lockstep {other : τ → Except ε (Step τ)} {R Q : σ → τ → Prop}
    (hstep : ∀ s t, R s t → StepRel R Q (body s) (other t)) (n : ℕ) {s : σ} {t : τ}
    (h : R s t) : OutcomeRel Q (run body n s) (run other n t) := by
  induction n generalizing s t with
  | zero => exact .running
  | succ n ih =>
    have hst := hstep s t h
    simp only [run]
    revert hst
    generalize body s = x, other t = y
    intro hst
    cases hst with
    | error e => exact .error e
    | next hr => exact ih hr
    | done hq => exact .returned hq

/-! ## Outcomes behind different numbers of passes -/

section Matches

variable {other : τ → Except ε (Step τ)} {R Q : σ → τ → Prop} {x : ℕ → Option (Except ε σ)}
  {y : ℕ → Option (Except ε τ)}

/-- Every outcome of the first has its counterpart behind some number of passes of the second. -/
def Matches (R : σ → τ → Prop) (x : ℕ → Option (Except ε σ)) (y : ℕ → Option (Except ε τ)) : Prop :=
  ∀ n r, x n = some r → ∃ m, OutcomeRel R (some r) (y m)

theorem Matches.of_rel (h : ∀ n, OutcomeRel R (x n) (y n)) : Matches R x y := by
  intro n r hr
  have hn := h n
  rw [hr] at hn
  exact ⟨n, hn⟩

theorem Matches.of_visits {s u : σ} {t v : τ} (hs : Visits body s u) (ht : Visits other t v)
    (h : Matches R (fun n => run body n u) fun n => run other n v) :
    Matches R (fun n => run body n s) fun n => run other n t := by
  induction hs with
  | start =>
    induction ht with
    | start => exact h
    | @step t' u' _ hb ih =>
      refine ih fun n r hr => ?_
      obtain ⟨m, hm⟩ := h n r hr
      exact ⟨m + 1, by simpa only [run_succ_next hb] using hm⟩
  | step _ hb ih =>
    refine ih fun n r hr => ?_
    cases n with
    | zero => cases hr
    | succ n =>
      simp only [run_succ_next hb] at hr
      exact h n r hr

/-- Lockstep simulation up to states from which the outcomes match. -/
theorem run_matches (hstep : ∀ s t, R s t → StepRel R Q (body s) (other t) ∨
      Matches Q (fun n => run body n s) fun n => run other n t) {s : σ} {t : τ} (h : R s t) :
    Matches Q (fun n => run body n s) fun n => run other n t := by
  intro n
  induction n generalizing s t with
  | zero => exact fun r hr => by cases hr
  | succ n ih =>
    intro r hr
    rcases hstep s t h with hst | hmatch
    · generalize hs : body s = b, ht : other t = c at hst
      cases hst with
      | error e =>
        simp only [run_succ_error hs] at hr
        obtain rfl := Option.some.inj hr
        exact ⟨1, by simp only [run_succ_error ht]; exact .error e⟩
      | @next s' t' hnext =>
        simp only [run_succ_next hs] at hr
        obtain ⟨m, hm⟩ := ih hnext r hr
        exact ⟨m + 1, by simpa only [run_succ_next ht] using hm⟩
      | @done s' t' hdone =>
        simp only [run_succ_done hs] at hr
        obtain rfl := Option.some.inj hr
        exact ⟨1, by simp only [run_succ_done ht]; exact .returned hdone⟩
    · exact hmatch (n + 1) r hr

theorem Matches.andThen {υ φ : Type*} {P : υ → φ → Prop} {f : ℕ → σ → Option (Except ε υ)}
    {g : ℕ → τ → Option (Except ε φ)} (hy : Settles y) (hg : ∀ t, Settles fun n => g n t)
    (h : Matches R x y) (hfg : ∀ s t, R s t → Matches P (fun n => f n s) fun n => g n t) :
    Matches P (fun n => LoopIteration.andThen (x n) (f n))
      fun n => LoopIteration.andThen (y n) (g n) := by
  intro n r hr
  cases hn : x n with
  | none =>
    simp only [LoopIteration.andThen, hn] at hr
    cases hr
  | some q =>
    obtain ⟨m, hm⟩ := h n q hn
    generalize hy' : y m = z at hm
    cases hm with
    | error e =>
      simp only [LoopIteration.andThen, hn] at hr
      obtain rfl := Option.some.inj hr
      exact ⟨m, by simp only [LoopIteration.andThen, hy']; exact .error e⟩
    | @returned s t hst =>
      simp only [LoopIteration.andThen, hn] at hr
      obtain ⟨k, hk⟩ : ∃ k, OutcomeRel P (some r) (g k t) := hfg s t hst n r hr
      generalize hg' : g k t = z at hk
      have hlater := hy m (max m k) _ hy' (Nat.le_max_left m k)
      refine ⟨max m k, ?_⟩
      cases hk with
      | error e =>
        have hlast := hg t k (max m k) _ hg' (Nat.le_max_right m k)
        simp only [LoopIteration.andThen, hlater, hlast]
        exact .error e
      | returned hp =>
        have hlast := hg t k (max m k) _ hg' (Nat.le_max_right m k)
        simp only [LoopIteration.andThen, hlater, hlast]
        exact .returned hp

theorem Matches.outcome {x y : ℕ → Option (Except ε σ)} (h : Matches Eq x y) {n : ℕ}
    {r : Except ε σ} (hr : x n = some r) : ∃ m, y m = some r := by
  obtain ⟨m, hm⟩ := h n r hr
  generalize hy : y m = z at hm
  cases hm with
  | error e => exact ⟨m, hy⟩
  | returned heq => exact ⟨m, heq ▸ hy⟩

end Matches

/-! ## What carries over -/

section Carries

variable {α α' : Type*} {R : α → α' → Prop}

/-- What the first outcome returns the second returns too, up to a relation. -/
def Carries (R : α → α' → Prop) (x : Except ε α) (y : Except ε α') : Prop :=
  ∀ a, x = .ok a → ∃ a', y = .ok a' ∧ R a a'

theorem Carries.ok {a : α} {a' : α'} (h : R a a') :
    Carries R (.ok a : Except ε α) (.ok a' : Except ε α') := by
  intro b hb
  exact ⟨a', rfl, Except.ok.inj hb ▸ h⟩

theorem Carries.error (e : ε) (y : Except ε α') : Carries R (.error e : Except ε α) y := by
  intro b hb
  cases hb

theorem Carries.bind {ε α α' γ γ' : Type} {R : α → α' → Prop} {Q : γ → γ' → Prop}
    {x : Except ε α} {y : Except ε α'} {f : α → Except ε γ} {g : α' → Except ε γ'}
    (h : Carries R x y) (hfg : ∀ a a', R a a' → Carries Q (f a) (g a')) :
    Carries Q (x >>= f) (y >>= g) := by
  intro c hc
  cases x with
  | error e => cases hc
  | ok a =>
    obtain ⟨a', rfl, ha⟩ := h a rfl
    exact hfg a a' ha c hc

theorem Carries.same {ε α γ γ' : Type} {Q : γ → γ' → Prop} (x : Except ε α)
    {f : α → Except ε γ} {g : α → Except ε γ'} (h : ∀ a, Carries Q (f a) (g a)) :
    Carries Q (x >>= f) (x >>= g) := by
  have hx : Carries Eq x x := fun a ha => ⟨a, ha, rfl⟩
  refine hx.bind ?_
  rintro a _ rfl
  exact h a

/-- How two passes go on: both with related states, or both out of the loop. -/
inductive Step.Both (R : σ → τ → Prop) : Step σ → Step τ → Prop where
  | next {s t} : R s t → Step.Both R (.next s) (.next t)
  | done {s t} : R s t → Step.Both R (.done s) (.done t)

def CarriesRun (R : σ → τ → Prop) (x : Option (Except ε σ)) (y : Option (Except ε τ)) : Prop :=
  ∀ s, x = some (.ok s) → ∃ t, y = some (.ok t) ∧ R s t

theorem CarriesRun.of_carries {R : σ → τ → Prop} {x : Except ε σ} {y : Except ε τ}
    (h : Carries R x y) : CarriesRun R (some x) (some y) := by
  intro s hs
  obtain ⟨t, ht, hst⟩ := h s (Option.some.inj hs)
  exact ⟨t, congrArg some ht, hst⟩

theorem CarriesRun.andThen {υ φ : Type*} {R : σ → τ → Prop} {P : υ → φ → Prop}
    {x : Option (Except ε σ)} {y : Option (Except ε τ)} {f : σ → Option (Except ε υ)}
    {g : τ → Option (Except ε φ)} (h : CarriesRun R x y)
    (hfg : ∀ s t, R s t → CarriesRun P (f s) (g t)) :
    CarriesRun P (LoopIteration.andThen x f) (LoopIteration.andThen y g) := by
  intro u hu
  obtain ⟨s, hx, hf⟩ := andThen_eq_ok_iff.mp hu
  obtain ⟨t, hy, hst⟩ := h s hx
  obtain ⟨v, hg, huv⟩ := hfg s t hst u hf
  exact ⟨v, andThen_eq_ok_iff.mpr ⟨t, hy, hg⟩, huv⟩

/-- A loop that returns does so where each of its passes carries over. -/
theorem run_carries {other : τ → Except ε (Step τ)} {R : σ → τ → Prop}
    (hstep : ∀ s t, R s t → Carries (Step.Both R) (body s) (other t)) (n : ℕ) {s : σ} {t : τ}
    (h : R s t) : CarriesRun R (run body n s) (run other n t) := by
  induction n generalizing s t with
  | zero =>
    intro u hu
    cases hu
  | succ n ih =>
    intro u hu
    rcases hb : body s with e | (s' | s')
    · rw [run_succ_error hb] at hu
      cases hu
    · obtain ⟨_, hother, hboth⟩ := hstep s t h _ hb
      cases hboth with
      | next hnext =>
        rw [run_succ_next hb] at hu
        rw [run_succ_next hother]
        exact ih hnext u hu
    · obtain ⟨_, hother, hboth⟩ := hstep s t h _ hb
      cases hboth with
      | @done _ t' hdone =>
        rw [run_succ_done hb] at hu
        obtain rfl : s' = u := Except.ok.inj (Option.some.inj hu)
        exact ⟨t', run_succ_done hother, hdone⟩

end Carries

end LoopIteration
