import Mathlib.Data.Set.Insert
import Mathlib.Data.List.Induction
import Mathlib.Data.List.Nodup
import Mathlib.Logic.Function.Basic
import Mathlib.Tactic.Tauto

/-! # Threads over a shared memory

A thread reads and writes cells, one at a time. A main program starts threads and waits for them,
and the threads that run step in any order. When no thread writes what another one reads or
writes, each of them does what it does alone. -/
namespace InterleavedThreads

inductive Thread (ι ν α : Type) where
  | done (a : α)
  | read (i : ι) (rest : ν → Thread ι ν α)
  | write (i : ι) (x : ν) (rest : Thread ι ν α)

variable {ι ν α β κ : Type}

namespace Thread

def bind : Thread ι ν α → (α → Thread ι ν β) → Thread ι ν β
  | .done a, f => f a
  | .read i rest, f => .read i fun x => (rest x).bind f
  | .write i x rest, f => .write i x (rest.bind f)

instance : Monad (Thread ι ν) where
  pure := .done
  bind := .bind

def load (i : ι) : Thread ι ν ν := .read i .done

def store (i : ι) (x : ν) : Thread ι ν Unit := .write i x (.done ())

section Exec

variable [DecidableEq ι]

def step : Thread ι ν α → (ι → ν) → Thread ι ν α × (ι → ν)
  | .done a, m => (.done a, m)
  | .read i rest, m => (rest (m i), m)
  | .write i x rest, m => (rest, Function.update m i x)

def exec : Thread ι ν α → (ι → ν) → α × (ι → ν)
  | .done a, m => (a, m)
  | .read i rest, m => (rest (m i)).exec m
  | .write i x rest, m => rest.exec (Function.update m i x)

theorem exec_step (p : Thread ι ν α) (m : ι → ν) : (p.step m).1.exec (p.step m).2 = p.exec m := by
  cases p <;> rfl

end Exec

/-! ## What a thread reads and writes -/

/-- With the cells `D` settled the thread reads settled cells only and writes cells of `W` only,
and ends with `Q` of its answer and of the cells that are settled then. -/
def Safe (W : Set ι) : Thread ι ν α → Set ι → (Set ι → α → Prop) → Prop
  | .done a, D, Q => Q D a
  | .read i rest, D, Q => i ∈ D ∧ ∀ x, (rest x).Safe W D Q
  | .write i _ rest, D, Q => i ∈ W ∧ rest.Safe W (insert i D) Q

variable {W D A : Set ι} {Q : Set ι → α → Prop} {p : Thread ι ν α} {m m' : ι → ν}

theorem safe_pure {a : α} : (pure a : Thread ι ν α).Safe W D Q ↔ Q D a := Iff.rfl

theorem safe_load {i : ι} {Q : Set ι → ν → Prop} :
    (load i).Safe W D Q ↔ i ∈ D ∧ ∀ x, Q D x := Iff.rfl

theorem safe_store {i : ι} {x : ν} {Q : Set ι → Unit → Prop} :
    (store i x).Safe W D Q ↔ i ∈ W ∧ Q (insert i D) () := Iff.rfl

theorem safe_bind {f : α → Thread ι ν β} {Q : Set ι → β → Prop} :
    (p >>= f).Safe W D Q ↔ p.Safe W D fun E a => (f a).Safe W E Q := by
  change (p.bind f).Safe W D Q ↔ _
  induction p generalizing D with
  | done a => rfl
  | read i rest ih => exact and_congr_right fun _ => forall_congr' fun x => ih x
  | write i x rest ih => exact and_congr_right fun _ => ih

theorem Safe.weaken {R : Set ι → α → Prop} (h : p.Safe W D Q) (hQ : ∀ E a, D ⊆ E → Q E a → R E a) :
    p.Safe W D R := by
  induction p generalizing D with
  | done a => exact hQ D a (Set.Subset.refl D) h
  | read i rest ih => exact ⟨h.1, fun x => ih x (h.2 x) hQ⟩
  | write i x rest ih =>
    exact ⟨h.1, ih h.2 fun E a hE => hQ E a ((Set.subset_insert i D).trans hE)⟩

theorem Safe.grow (h : p.Safe W D Q) : p.Safe W D fun E a => D ⊆ E ∧ Q E a :=
  h.weaken fun _ _ hE hQ => ⟨hE, hQ⟩

/-- A loop keeps what each of its rounds keeps. -/
theorem safe_foldlM {I : Set ι → Prop} {f : β → α → Thread ι ν β} {xs : List α}
    (hstep : ∀ E b, ∀ x ∈ xs, I E → (f b x).Safe W E fun F _ => I F) (b : β) (h : I D) :
    (xs.foldlM f b).Safe W D fun F _ => I F := by
  induction xs generalizing b D with
  | nil => exact h
  | cons x xs ih =>
    rw [List.foldlM_cons, safe_bind]
    refine (hstep D b x List.mem_cons_self h).weaken fun E b' _ hI => ?_
    exact ih (fun F c y hy => hstep F c y (List.mem_cons_of_mem x hy)) b' hI

/-- A loop has done behind it what each of its rounds does. -/
theorem safe_forM {R : α → Set ι → Prop} {f : α → Thread ι ν PUnit} {xs : List α}
    (hmono : ∀ x E F, E ⊆ F → R x E → R x F)
    (hstep : ∀ E, D ⊆ E → ∀ x ∈ xs, (f x).Safe W E fun F _ => R x F) :
    (xs.forM f).Safe W D fun F _ => ∀ x ∈ xs, R x F := by
  induction xs generalizing D with
  | nil => exact fun x hx => absurd hx List.not_mem_nil
  | cons x xs ih =>
    change (f x >>= fun _ => xs.forM f).Safe W D _
    rw [safe_bind]
    refine (hstep D (Set.Subset.refl D) x List.mem_cons_self).weaken fun E _ hE hx => ?_
    refine (ih fun F hF y hy => hstep F (hE.trans hF) y (List.mem_cons_of_mem x hy)).weaken
      fun F _ hF hxs y hy => ?_
    rcases List.mem_cons.mp hy with rfl | hy
    · exact hmono y E F hF hx
    · exact hxs y hy

variable [DecidableEq ι]

/-- Memories that agree on the settled cells give one answer, and agree there in the end. -/
theorem Safe.agree (h : p.Safe W D Q) (hD : D ⊆ A) (hm : ∀ i ∈ A, m i = m' i) :
    (p.exec m).1 = (p.exec m').1 ∧ ∃ E, Q E (p.exec m).1 ∧
      ∀ i ∈ A ∪ E, (p.exec m).2 i = (p.exec m').2 i := by
  induction p generalizing D A m m' with
  | done a => exact ⟨rfl, D, h, fun i hi => hm i (hi.elim id fun hi => hD hi)⟩
  | read i rest ih =>
    rw [exec, exec, ← hm i (hD h.1)]
    exact ih (m i) (h.2 (m i)) hD hm
  | write i x rest ih =>
    have hi : ∀ j ∈ insert i A, Function.update m i x j = Function.update m' i x j := by
      intro j hj
      by_cases hji : j = i
      · rw [hji, Function.update_self, Function.update_self]
      · rw [Function.update_of_ne hji, Function.update_of_ne hji]
        exact hm j (hj.resolve_left hji)
    obtain ⟨ha, E, hQ, hE⟩ := ih h.2 (Set.insert_subset_insert hD) hi
    exact ⟨ha, E, hQ, fun j hj => hE j (hj.imp (Set.mem_insert_of_mem i) id)⟩

theorem Safe.frame (h : p.Safe W D Q) {i : ι} (hi : i ∉ W) (m : ι → ν) : (p.exec m).2 i = m i := by
  induction p generalizing D m with
  | done a => rfl
  | read j rest ih => exact ih (m j) (h.2 (m j)) m
  | write j x rest ih =>
    have hne : i ≠ j := fun hij => hi (hij ▸ h.1)
    rw [exec, ih h.2, Function.update_of_ne hne]

theorem Safe.step (h : p.Safe W D Q) (m : ι → ν) :
    ∃ E, D ⊆ E ∧ E ⊆ D ∪ W ∧ (p.step m).1.Safe W E Q := by
  cases p with
  | done a => exact ⟨D, Set.Subset.refl D, Set.subset_union_left, h⟩
  | read i rest => exact ⟨D, Set.Subset.refl D, Set.subset_union_left, h.2 (m i)⟩
  | write i x rest =>
    refine ⟨insert i D, Set.subset_insert i D, ?_, h.2⟩
    exact Set.insert_subset (Set.mem_union_right D h.1) Set.subset_union_left

theorem Safe.step_frame (h : p.Safe W D Q) {i : ι} (hi : i ∉ W) (m : ι → ν) :
    (p.step m).2 i = m i := by
  cases p with
  | done a => rfl
  | read j rest => rfl
  | write j x rest =>
    have hne : i ≠ j := fun hij => hi (hij ▸ h.1)
    exact Function.update_of_ne hne x m

end Thread

/-! ## A main program and its threads -/

inductive Order (κ : Type) where
  | spawn (l : κ)
  | join (l : κ)
  deriving DecidableEq

/-- The orders to come, the threads that were started, and the memory. -/
structure Pool (κ ι ν : Type) where
  orders : List (Order κ)
  running : κ → Option (Thread ι ν Unit)
  memory : ι → ν

def Pool.start (orders : List (Order κ)) (m : ι → ν) : Pool κ ι ν := ⟨orders, fun _ => none, m⟩

/-- What a thread has still to do, also one that was not started. -/
def Pool.rest (body : κ → Thread ι ν Unit) (pool : Pool κ ι ν) (l : κ) : Thread ι ν Unit :=
  (pool.running l).getD (body l)

/-- The orders start every thread once and wait for it later. -/
structure Orderly (ls : List κ) (orders : List (Order κ)) : Prop where
  nodup : ls.Nodup
  once : ∀ past l more, orders = past ++ .spawn l :: more → l ∈ ls ∧ .spawn l ∉ past
  joined : ∀ l ∈ ls, .join l ∈ orders
  behind : ∀ past l more, orders = past ++ .join l :: more → .spawn l ∈ past

def Follows (started : Set κ) : List (Order κ) → Prop
  | [] => True
  | .spawn l :: orders => l ∉ started ∧ Follows (insert l started) orders
  | .join l :: orders => l ∈ started ∧ Follows started orders

theorem follows_append {started : Set κ} {first second : List (Order κ)} :
    Follows started (first ++ second) ↔
      Follows started first ∧ Follows (started ∪ { l | .spawn l ∈ first }) second := by
  induction first generalizing started with
  | nil => simp [Follows]
  | cons order first ih =>
    cases order with
    | spawn l =>
      have hset : insert l started ∪ { l' | Order.spawn l' ∈ first } =
          started ∪ { l' | Order.spawn l' ∈ Order.spawn l :: first } := by
        ext l'
        simp only [Set.mem_union, Set.mem_insert_iff, Set.mem_ofPred_eq, List.mem_cons,
          Order.spawn.injEq]
        tauto
      rw [List.cons_append, Follows, Follows, ih, hset, and_assoc]
    | join l =>
      have hset : started ∪ { l' | Order.spawn l' ∈ first } =
          started ∪ { l' | Order.spawn l' ∈ Order.join l :: first } := by
        ext l'
        simp
      rw [List.cons_append, Follows, Follows, ih, hset, and_assoc]

theorem orderly_of_follows {ls : List κ} {orders : List (Order κ)} (hnodup : ls.Nodup)
    (h : Follows ∅ orders) (hmem : ∀ l, .spawn l ∈ orders → l ∈ ls)
    (hjoined : ∀ l ∈ ls, .join l ∈ orders) : Orderly ls orders := by
  refine ⟨hnodup, fun past l more heq => ?_, hjoined, fun past l more heq => ?_⟩
  · rw [heq, follows_append] at h
    exact ⟨hmem l (by rw [heq]; simp), fun hpast => h.2.1 (.inr hpast)⟩
  · rw [heq, follows_append] at h
    exact h.2.1.resolve_left id

/-- No thread writes what another one reads or writes. -/
structure Independent (body : κ → Thread ι ν Unit) (D W : κ → Set ι) (ls : List κ) : Prop where
  safe : ∀ l ∈ ls, (body l).Safe (W l) (D l) fun _ _ => True
  apart : ∀ l ∈ ls, ∀ l' ∈ ls, l ≠ l' → ∀ i ∈ W l', i ∉ D l ∧ i ∉ W l

structure Under (orders : List (Order κ)) (pool : Pool κ ι ν) (past : List (Order κ)) : Prop where
  whole : orders = past ++ pool.orders
  started : ∀ l, (pool.running l).isSome ↔ .spawn l ∈ past
  awaited : ∀ l, .join l ∈ past → pool.running l = some (.done ())

section Under

variable {orders past : List (Order κ)} {ls : List κ} {pool : Pool κ ι ν}

theorem start_under (orders : List (Order κ)) (m : ι → ν) :
    Under orders (Pool.start orders m) [] where
  whole := rfl
  started _ := ⟨fun h => absurd h (by simp [Pool.start]), fun h => absurd h (by simp)⟩
  awaited _ h := absurd h (by simp)

theorem not_started (hord : Orderly ls orders) (h : Under orders pool past) {l : κ}
    {more : List (Order κ)} (hp : pool.orders = .spawn l :: more) : pool.running l = none := by
  rw [← Option.not_isSome_iff_eq_none, h.started l]
  exact (hord.once past l more (by rw [h.whole, hp])).2

theorem started_mem (hord : Orderly ls orders) (h : Under orders pool past) {l : κ}
    (hl : (pool.running l).isSome) : l ∈ ls := by
  obtain ⟨front, back, rfl⟩ := List.append_of_mem ((h.started l).mp hl)
  exact (hord.once front l (back ++ pool.orders) (by rw [h.whole]; simp)).1

end Under

section Pool

variable [DecidableEq κ] [DecidableEq ι]

/-- A main program waits at a join until the thread is done. -/
def Pool.main_step (body : κ → Thread ι ν Unit) (pool : Pool κ ι ν) : Pool κ ι ν :=
  match pool.orders with
  | [] => pool
  | .spawn l :: orders =>
    { pool with orders := orders, running := Function.update pool.running l (some (body l)) }
  | .join l :: orders =>
    match pool.running l with
    | some (.done _) => { pool with orders := orders }
    | _ => pool

def Pool.thread_step (pool : Pool κ ι ν) (l : κ) : Pool κ ι ν :=
  match pool.running l with
  | none => pool
  | some p => { pool with
      running := Function.update pool.running l (some (p.step pool.memory).1)
      memory := (p.step pool.memory).2 }

def Pool.tick (body : κ → Thread ι ν Unit) (pool : Pool κ ι ν) : Option κ → Pool κ ι ν
  | none => pool.main_step body
  | some l => pool.thread_step l

def Pool.play (body : κ → Thread ι ν Unit) (schedule : List (Option κ)) (pool : Pool κ ι ν) :
    Pool κ ι ν :=
  schedule.foldl (Pool.tick body) pool

def one_by_one (body : κ → Thread ι ν Unit) (ls : List κ) (m : ι → ν) : ι → ν :=
  ls.foldl (fun m l => ((body l).exec m).2) m

structure Alone (body : κ → Thread ι ν Unit) (D W : κ → Set ι) (ls : List κ) (m : ι → ν)
    (pool : Pool κ ι ν) : Prop where
  safe : ∀ l ∈ ls, ∃ E ⊆ D l ∪ W l, (pool.rest body l).Safe (W l) E fun _ _ => True
  alone : ∀ l ∈ ls, ∀ i ∈ W l, ((pool.rest body l).exec pool.memory).2 i = ((body l).exec m).2 i
  outside : ∀ i, (∀ l ∈ ls, i ∉ W l) → pool.memory i = m i

variable {body : κ → Thread ι ν Unit} {D W : κ → Set ι} {ls : List κ} {orders past : List (Order κ)}
  {m : ι → ν} {pool : Pool κ ι ν}

omit [DecidableEq κ] in
theorem start_alone (h : Independent body D W ls) (orders : List (Order κ)) (m : ι → ν) :
    Alone body D W ls m (Pool.start orders m) where
  safe l hl := ⟨D l, Set.subset_union_left, h.safe l hl⟩
  alone _ _ _ _ := rfl
  outside _ _ := rfl

/-! ### One step -/

theorem thread_step_under (h : Under orders pool past) (l : κ) :
    Under orders (pool.thread_step l) past := by
  unfold Pool.thread_step
  cases hl : pool.running l with
  | none => exact h
  | some p =>
    refine ⟨h.whole, fun l' => ?_, fun l' hl' => ?_⟩
    · by_cases hne : l' = l
      · subst hne
        simp only [Function.update_self, Option.isSome_some, true_iff]
        exact (h.started l').mp (by rw [hl]; rfl)
      · simpa only [Function.update_of_ne hne] using h.started l'
    · by_cases hne : l' = l
      · subst hne
        obtain rfl := Option.some.inj (hl.symm.trans (h.awaited l' hl'))
        exact Function.update_self ..
      · simpa only [Function.update_of_ne hne] using h.awaited l' hl'

theorem thread_step_rest {l l' : κ} (hl : (pool.running l).isSome) :
    (pool.thread_step l).rest body l' =
      if l' = l then ((pool.rest body l).step pool.memory).1 else pool.rest body l' := by
  obtain ⟨p, hp⟩ := Option.isSome_iff_exists.mp hl
  simp only [Pool.thread_step, Pool.rest, hp]
  split
  · next hne => rw [hne, Function.update_self]; rfl
  · next hne => rw [Function.update_of_ne hne]

theorem thread_step_memory (body : κ → Thread ι ν Unit) {l : κ} (hl : (pool.running l).isSome) :
    (pool.thread_step l).memory = ((pool.rest body l).step pool.memory).2 := by
  obtain ⟨p, hp⟩ := Option.isSome_iff_exists.mp hl
  simp only [Pool.thread_step, Pool.rest, hp]
  rfl

theorem thread_step_alone (hind : Independent body D W ls) (h : Alone body D W ls m pool) {l : κ}
    (hmem : (pool.running l).isSome → l ∈ ls) : Alone body D W ls m (pool.thread_step l) := by
  by_cases hl : (pool.running l).isSome
  case neg =>
    rw [Pool.thread_step, Option.not_isSome_iff_eq_none.mp hl]
    exact h
  obtain ⟨E, hE, hsafe⟩ := h.safe l (hmem hl)
  have hkeep : ∀ i, i ∉ W l → (pool.thread_step l).memory i = pool.memory i := by
    intro i hi
    rw [thread_step_memory body hl]
    exact hsafe.step_frame hi pool.memory
  refine ⟨fun l' hl' => ?_, fun l' hl' i hi => ?_, fun i hi => ?_⟩
  · rw [thread_step_rest hl]
    split
    · next heq =>
      obtain ⟨F, -, hF, hsafe'⟩ := hsafe.step pool.memory
      rw [heq]
      exact ⟨F, hF.trans (Set.union_subset hE Set.subset_union_right), hsafe'⟩
    · exact h.safe l' hl'
  · rw [thread_step_rest hl]
    split
    · next heq =>
      subst heq
      rw [thread_step_memory body hl, Thread.exec_step]
      exact h.alone l' hl' i hi
    · next hne =>
      -- what the other thread reads or writes is out of reach of the step
      obtain ⟨F, hF, hsafe'⟩ := h.safe l' hl'
      have hagree : ∀ j ∈ D l' ∪ W l', (pool.thread_step l).memory j = pool.memory j := by
        intro j hj
        refine hkeep j fun hjl => ?_
        obtain ⟨hD, hW⟩ := hind.apart l' hl' l (hmem hl) hne j hjl
        exact hj.elim hD hW
      obtain ⟨-, G, -, hG⟩ := hsafe'.agree hF hagree
      rw [hG i (.inl (.inr hi))]
      exact h.alone l' hl' i hi
  · rw [hkeep i (hi l (hmem hl))]
    exact h.outside i hi

omit [DecidableEq ι] in
theorem main_step_cases (body : κ → Thread ι ν Unit) (pool : Pool κ ι ν) :
    pool.main_step body = pool ∨
    (∃ l more, pool.orders = .spawn l :: more ∧ pool.main_step body =
      ⟨more, Function.update pool.running l (some (body l)), pool.memory⟩) ∨
    ∃ l more, pool.orders = .join l :: more ∧ pool.running l = some (.done ()) ∧
      pool.main_step body = ⟨more, pool.running, pool.memory⟩ := by
  unfold Pool.main_step
  rcases pool with ⟨_ | ⟨l | l, more⟩, running, memory⟩
  · exact .inl rfl
  · exact .inr (.inl ⟨l, more, rfl, rfl⟩)
  · match hl : running l with
    | none | some (.read ..) | some (.write ..) => simp [hl]
    | some (.done ()) => exact .inr (.inr ⟨l, more, rfl, hl, by simp [hl]⟩)

omit [DecidableEq ι] in
theorem main_step_under (body : κ → Thread ι ν Unit) (hord : Orderly ls orders)
    (h : Under orders pool past) :
    ∃ past', Under orders (pool.main_step body) past' := by
  obtain heq | ⟨l, more, hp, heq⟩ | ⟨l, more, hp, hl, heq⟩ := main_step_cases body pool
  · exact ⟨past, by rwa [heq]⟩
  · rw [heq]
    refine ⟨past ++ [.spawn l], by simp [h.whole, hp], fun l' => ?_, fun l' hl' => ?_⟩
    · by_cases hne : l' = l
      · simp [hne]
      · simp [h.started l', hne]
    · have hjoin : Order.join l' ∈ past := by simpa using hl'
      have hne : l' ≠ l := by
        rintro rfl
        exact absurd (h.awaited l' hjoin) (by simp [not_started hord h hp])
      exact (Function.update_of_ne hne ..).trans (h.awaited l' hjoin)
  · rw [heq]
    refine ⟨past ++ [.join l], by simp [h.whole, hp], fun l' => by simp [h.started l'],
      fun l' hl' => ?_⟩
    rcases List.mem_append.mp hl' with hl' | hl'
    · exact h.awaited l' hl'
    · obtain rfl : l' = l := by simpa using hl'
      exact hl

omit [DecidableEq ι] in
theorem main_step_rest (body : κ → Thread ι ν Unit) (hord : Orderly ls orders)
    (h : Under orders pool past) :
    (pool.main_step body).rest body = pool.rest body ∧
      (pool.main_step body).memory = pool.memory := by
  obtain heq | ⟨l, more, hp, heq⟩ | ⟨l, more, hp, hl, heq⟩ := main_step_cases body pool
  · rw [heq]
    exact ⟨rfl, rfl⟩
  · rw [heq]
    refine ⟨funext fun l' => ?_, rfl⟩
    by_cases hne : l' = l
    · simp [Pool.rest, hne, not_started hord h hp]
    · simp [Pool.rest, Function.update_of_ne hne]
  · rw [heq]
    exact ⟨rfl, rfl⟩

theorem main_step_alone (hord : Orderly ls orders) (hunder : Under orders pool past)
    (h : Alone body D W ls m pool) : Alone body D W ls m (pool.main_step body) := by
  obtain ⟨hrest, hmemory⟩ := main_step_rest body hord hunder
  refine ⟨?_, ?_, ?_⟩
  · rw [hrest]
    exact h.safe
  · rw [hrest, hmemory]
    exact h.alone
  · rw [hmemory]
    exact h.outside

/-! ### Whole runs -/

theorem tick_under (body : κ → Thread ι ν Unit) (hord : Orderly ls orders)
    (h : Under orders pool past) (who : Option κ) :
    ∃ past', Under orders (pool.tick body who) past' := by
  cases who with
  | none => exact main_step_under body hord h
  | some l => exact ⟨past, thread_step_under h l⟩

theorem play_under (body : κ → Thread ι ν Unit) (hord : Orderly ls orders)
    (schedule : List (Option κ)) (h : Under orders pool past) :
    ∃ past', Under orders (pool.play body schedule) past' := by
  induction schedule generalizing pool past with
  | nil => exact ⟨past, h⟩
  | cons who schedule ih =>
    obtain ⟨past', h'⟩ := tick_under body hord h who
    exact ih h'

theorem play_alone (hord : Orderly ls orders) (hind : Independent body D W ls)
    (schedule : List (Option κ)) (hunder : Under orders pool past)
    (h : Alone body D W ls m pool) : Alone body D W ls m (pool.play body schedule) := by
  induction schedule generalizing pool past with
  | nil => exact h
  | cons who schedule ih =>
    obtain ⟨past', hunder'⟩ := tick_under body hord hunder who
    refine ih hunder' ?_
    cases who with
    | none => exact main_step_alone hord hunder h
    | some l => exact thread_step_alone hind h (started_mem hord hunder)

theorem play_end (hord : Orderly ls orders) (hind : Independent body D W ls)
    {schedule : List (Option κ)}
    (hend : ((Pool.start orders m).play body schedule).orders = []) :
    (∀ l ∈ ls, ∀ i ∈ W l,
      ((Pool.start orders m).play body schedule).memory i = ((body l).exec m).2 i) ∧
    ∀ i, (∀ l ∈ ls, i ∉ W l) → ((Pool.start orders m).play body schedule).memory i = m i := by
  obtain ⟨past, hunder⟩ := play_under body hord schedule (start_under orders m)
  have halone := play_alone hord hind schedule (start_under orders m)
    (start_alone hind orders m)
  refine ⟨fun l hl i hi => ?_, halone.outside⟩
  have hdone := hunder.awaited l (by
    have hjoin := hord.joined l hl
    rwa [hunder.whole, hend, List.append_nil] at hjoin)
  rw [← halone.alone l hl i hi, Pool.rest, hdone]
  rfl

omit [DecidableEq κ] in
theorem one_by_one_end (m : ι → ν) (hnodup : ls.Nodup) (hind : Independent body D W ls) :
    (∀ l ∈ ls, ∀ i ∈ W l, one_by_one body ls m i = ((body l).exec m).2 i) ∧
    ∀ i, (∀ l ∈ ls, i ∉ W l) → one_by_one body ls m i = m i := by
  induction ls using List.reverseRecOn with
  | nil => exact ⟨fun l hl => absurd hl (by simp), fun _ _ => rfl⟩
  | append_singleton ls l ih =>
    rw [List.nodup_append] at hnodup
    obtain ⟨hls, -, hdisj⟩ := hnodup
    have hmem : l ∈ ls ++ [l] := by simp
    have hpast : ∀ l' ∈ ls, l' ∈ ls ++ [l] := fun l' h => List.mem_append_left _ h
    obtain ⟨hdid, hleft⟩ := ih hls
      ⟨fun l' h => hind.safe l' (hpast l' h),
        fun l₁ h₁ l₂ h₂ => hind.apart l₁ (hpast l₁ h₁) l₂ (hpast l₂ h₂)⟩
    have heq : one_by_one body (ls ++ [l]) m = ((body l).exec (one_by_one body ls m)).2 := by
      simp [one_by_one]
    have hsafe := hind.safe l hmem
    have hagree : ∀ i ∈ D l ∪ W l, one_by_one body ls m i = m i := by
      intro i hi
      refine hleft i fun l' hl' hil' => ?_
      obtain ⟨hD, hW⟩ := hind.apart l hmem l' (hpast l' hl')
        (fun hll => hdisj l' hl' l (by simp) hll.symm) i hil'
      exact hi.elim hD hW
    rw [heq]
    refine ⟨fun l' hl' i hi => ?_, fun i hi => ?_⟩
    · rcases List.mem_append.mp hl' with hold | hnew
      · have hne : l' ≠ l := fun hll => hdisj l' hold l (by simp) hll
        rw [hsafe.frame (hind.apart l' hl' l hmem hne i |>.mt fun h => h.2 hi),
          hdid l' hold i hi]
      · obtain rfl : l' = l := by simpa using hnew
        obtain ⟨-, E, -, hE⟩ := hsafe.agree Set.subset_union_left hagree
        exact hE i (.inl (.inr hi))
    · rw [hsafe.frame (hi l hmem), hleft i fun l' hl' => hi l' (hpast l' hl')]

/-- However the threads are scheduled, they leave what they leave one after the other. -/
theorem play_one_by_one (hord : Orderly ls orders) (hind : Independent body D W ls)
    {schedule : List (Option κ)}
    (hend : ((Pool.start orders m).play body schedule).orders = []) :
    ((Pool.start orders m).play body schedule).memory = one_by_one body ls m := by
  obtain ⟨hdid, hleft⟩ := play_end hord hind hend
  obtain ⟨hdid', hleft'⟩ := one_by_one_end m hord.nodup hind
  funext i
  by_cases hi : ∃ l ∈ ls, i ∈ W l
  · obtain ⟨l, hl, hil⟩ := hi
    rw [hdid l hl i hil, hdid' l hl i hil]
  · have hnone : ∀ l ∈ ls, i ∉ W l := fun l hl hil => hi ⟨l, hl, hil⟩
    rw [hleft i hnone, hleft' i hnone]

theorem thread_finishes (body : κ → Thread ι ν Unit) {l : κ} {p : Thread ι ν Unit}
    (hl : pool.running l = some p) :
    ∃ n, (pool.play body (List.replicate n (some l))).running l = some (.done ()) ∧
      (pool.play body (List.replicate n (some l))).orders = pool.orders := by
  induction p generalizing pool with
  | done a => exact ⟨0, hl, rfl⟩
  | read i rest ih =>
    obtain ⟨n, hdone, horders⟩ := @ih (pool.memory i) (pool.thread_step l)
      (by simp [Pool.thread_step, hl, Thread.step])
    exact ⟨n + 1, hdone, horders.trans (by simp [Pool.thread_step, hl])⟩
  | write i x rest ih =>
    obtain ⟨n, hdone, horders⟩ := @ih (pool.thread_step l)
      (by simp [Pool.thread_step, hl, Thread.step])
    exact ⟨n + 1, hdone, horders.trans (by simp [Pool.thread_step, hl])⟩

theorem play_append (first second : List (Option κ)) :
    pool.play body (first ++ second) = (pool.play body first).play body second :=
  List.foldl_append

/-- The main program never waits in vain. -/
theorem play_completes (body : κ → Thread ι ν Unit) (hord : Orderly ls orders)
    {pool : Pool κ ι ν} {past : List (Order κ)} (h : Under orders pool past) :
    ∃ schedule, (pool.play body schedule).orders = [] := by
  match hp : pool.orders with
  | [] => exact ⟨[], hp⟩
  | .spawn l :: more =>
    obtain ⟨past', h'⟩ := main_step_under body hord h
    have hlen : (pool.main_step body).orders = more := by simp [Pool.main_step, hp]
    obtain ⟨schedule, hend⟩ := play_completes body hord h'
    exact ⟨none :: schedule, hend⟩
  | .join l :: more =>
    have hstarted := (h.started l).mpr (hord.behind past l more (by rw [h.whole, hp]))
    obtain ⟨p, hl⟩ := Option.isSome_iff_exists.mp hstarted
    obtain ⟨n, hdone, horders⟩ := thread_finishes body hl
    obtain ⟨past', h'⟩ := play_under body hord (List.replicate n (some l)) h
    obtain ⟨past'', h''⟩ := main_step_under body hord h'
    have hlen : ((pool.play body (List.replicate n (some l))).main_step body).orders = more := by
      simp [Pool.main_step, horders, hp, hdone]
    obtain ⟨schedule, hend⟩ := play_completes body hord h''
    refine ⟨List.replicate n (some l) ++ none :: schedule, ?_⟩
    rw [play_append]
    exact hend
termination_by pool.orders.length
decreasing_by all_goals simp [hlen, hp]

end Pool

end InterleavedThreads
