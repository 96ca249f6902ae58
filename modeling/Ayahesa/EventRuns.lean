import Mathlib.Data.List.Induction
import Mathlib.Data.List.Basic

/-! # Runs of a component over the events it is given

A step leads from one state to the next, or there is none: the event cannot happen or its
handler fails. What is said of an event may depend on all events before it. -/
namespace EventRuns

variable {σ α : Type*}

/-- The state behind a sequence of events, if every step of it was taken. -/
def run (step : σ → α → Option σ) (s : σ) (events : List α) : Option σ := events.foldlM step s

/-- Every event meets a condition that knows the events before it. -/
def Throughout (P : List α → α → Prop) (events : List α) : Prop :=
  ∀ past a rest, events = past ++ a :: rest → P past a

theorem Throughout.of_append {P : List α → α → Prop} {past more : List α}
    (h : Throughout P (past ++ more)) : Throughout P past := by
  intro before a rest hsplit
  apply h before a (rest ++ more)
  rw [hsplit, List.append_assoc, List.cons_append]

theorem throughout_snoc {P : List α → α → Prop} {past : List α} {a : α} :
    Throughout P (past ++ [a]) ↔ Throughout P past ∧ P past a := by
  constructor
  · exact fun h => ⟨h.of_append, h past a [] rfl⟩
  · rintro ⟨hpast, ha⟩ before b rest hsplit
    rcases List.eq_nil_or_concat rest with rfl | ⟨init, last, rfl⟩
    · obtain ⟨rfl, hb⟩ := List.append_inj' hsplit rfl
      obtain rfl := (List.cons.inj hb).1
      exact ha
    · rw [List.concat_eq_append, ← List.cons_append, ← List.append_assoc] at hsplit
      exact hpast before b init (List.append_inj' hsplit rfl).1

section Run

variable {step : σ → α → Option σ} {s t u : σ} {past more : List α} {a : α}

@[simp] theorem run_nil : run step s [] = some s := rfl

theorem run_append : run step s (past ++ more) = (run step s past).bind fun t => run step t more :=
  List.foldlM_append

theorem run_of_append (h : run step s (past ++ more) = some u) :
    ∃ t, run step s past = some t := by
  rw [run_append] at h
  obtain ⟨t, ht, -⟩ := Option.bind_eq_some_iff.mp h
  exact ⟨t, ht⟩

theorem run_snoc : run step s (past ++ [a]) = (run step s past).bind fun t => step t a := by
  rw [run_append]
  congr 1
  funext t
  exact bind_pure (step t a)

/-- A run can be stopped anywhere. -/
theorem run_step (hrun : run step s past = some t) (hstep : step t a = some u) :
    run step s (past ++ [a]) = some u := by
  rw [run_snoc, hrun]
  exact hstep

theorem run_invariant (Inv : List α → σ → Prop) (P : List α → α → Prop) {events : List α}
    (hstart : Inv [] s)
    (hstep : ∀ past a t u, run step s past = some t → Inv past t → P past a → step t a = some u →
      Inv (past ++ [a]) u)
    (hP : Throughout P events) (h : run step s events = some t) : Inv events t := by
  induction events using List.reverseRecOn generalizing t with
  | nil =>
    obtain rfl := Option.some.inj h
    exact hstart
  | append_singleton past a ih =>
    obtain ⟨hpast, ha⟩ := throughout_snoc.mp hP
    rw [run_snoc] at h
    obtain ⟨t, ht, hu⟩ := Option.bind_eq_some_iff.mp h
    exact hstep past a t _ ht (ih hpast ht) ha hu

/-- Where the invariant also makes the next step possible, the run gets to its end. -/
theorem run_progress (Inv : List α → σ → Prop) (P : List α → α → Prop) {events : List α}
    (hstart : Inv [] s)
    (hstep : ∀ past a t, Inv past t → P past a → ∃ u, step t a = some u ∧ Inv (past ++ [a]) u)
    (hP : Throughout P events) : ∃ t, run step s events = some t ∧ Inv events t := by
  induction events using List.reverseRecOn with
  | nil => exact ⟨s, rfl, hstart⟩
  | append_singleton past a ih =>
    obtain ⟨hpast, ha⟩ := throughout_snoc.mp hP
    obtain ⟨t, ht, hinv⟩ := ih hpast
    obtain ⟨u, hu, hnext⟩ := hstep past a t hinv ha
    exact ⟨u, run_step ht hu, hnext⟩

/-- What holds of an event in every state that meets it, said of the events before it. -/
theorem throughout_iff {P : σ → α → Prop} {Q : List α → α → Prop}
    (h : ∀ past a t, run step s past = some t → (P t a ↔ Q past a)) (events : List α) :
    (∀ past a rest t, events = past ++ a :: rest → run step s past = some t → P t a) ↔
      Throughout (fun past a => run step s past ≠ none → Q past a) events := by
  constructor
  · intro hP past a rest hsplit hreached
    obtain ⟨t, ht⟩ := Option.ne_none_iff_exists'.mp hreached
    exact (h past a t ht).mp (hP past a rest t hsplit ht)
  · intro hQ past a rest t hsplit ht
    have hreached : run step s past ≠ none := by
      rw [ht]
      exact Option.some_ne_none t
    exact (h past a t ht).mpr (hQ past a rest hsplit hreached)

/-- What holds in a state if and only if all events before it allow it, said of the events. -/
theorem everywhere_iff {Inv : σ → Prop} {Q : α → Prop}
    (h : ∀ past t, run step s past = some t → (Inv t ↔ ∀ a ∈ past, Q a)) (events : List α) :
    (∀ past rest t, events = past ++ rest → run step s past = some t → Inv t) ↔
      Throughout (fun past a => run step s (past ++ [a]) ≠ none → Q a) events := by
  constructor
  · intro hInv past a rest hsplit hreached
    obtain ⟨t, ht⟩ := Option.ne_none_iff_exists'.mp hreached
    have hhere := hInv (past ++ [a]) rest t (by rw [hsplit, List.append_assoc]; rfl) ht
    exact (h _ t ht).mp hhere a (List.mem_append_right _ List.mem_cons_self)
  · intro hQ past rest t hsplit ht
    apply (h past t ht).mpr
    intro a ha
    obtain ⟨before, behind, rfl⟩ := List.append_of_mem ha
    rw [List.append_cons] at ht
    obtain ⟨u, hu⟩ := run_of_append ht
    apply hQ before a (behind ++ rest)
    · rw [hsplit, List.append_assoc, List.cons_append]
    · rw [hu]
      exact Option.some_ne_none u

end Run

end EventRuns
