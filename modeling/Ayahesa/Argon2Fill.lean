import Ayahesa.Argon2Hash

/-! # Filling the memory with threads

Every slice is filled by one thread for each lane. The threads take turns in any order, but the
memory that they leave is always the same, and it does not depend on what the allocator left in
it. -/
namespace Argon2Fill

open CMemory InterleavedThreads Thread Argon2Memory Argon2Hash

/-! ## Calls on the system -/

section Calls

variable {α β : Type} {sys : System}

theorem bind_run_ok {x : Call α} {f : α → Call β} {b : β} :
    (x >>= f).run = some (.ok b) ↔ ∃ a, x.run = some (.ok a) ∧ (f a).run = some (.ok b) := by
  rw [ExceptT.run_bind]
  rcases x.run with _ | e | a <;> simp

theorem bind_run_error {x : Call α} {f : α → Call β} {e : Argon2ErrorCode} :
    (x >>= f).run = some (.error e) ↔ x.run = some (.error e) ∨
      ∃ a, x.run = some (.ok a) ∧ (f a).run = some (.error e) := by
  rw [ExceptT.run_bind]
  rcases x.run with _ | e' | a <;> simp

/-- A call that fails only where something is refused that it asks the system for. -/
def Blameless (sys : System) (x : Call α) : Prop :=
  ∀ e, x.run = some (.error e) → sys.Fails e

theorem pure_blameless (sys : System) (a : α) : Blameless sys (pure a) := by
  intro e h
  cases h

theorem Blameless.bind {x : Call α} {f : α → Call β} (hx : Blameless sys x)
    (hf : ∀ a, Blameless sys (f a)) : Blameless sys (x >>= f) := by
  intro e h
  obtain h | ⟨a, -, h⟩ := bind_run_error.mp h
  · exact hx e h
  · exact hf a e h

theorem Blameless.foldlM {f : β → α → Call β} (hf : ∀ b a, Blameless sys (f b a)) (as : List α)
    (b : β) : Blameless sys (as.foldlM f b) := by
  induction as generalizing b with
  | nil => exact pure_blameless sys b
  | cons a as ih => exact (hf b a).bind ih

theorem allocate_blameless (sys : System) (a : Allocation) : Blameless sys (allocate sys a) := by
  intro e h
  unfold allocate at h
  split at h
  · cases h
  · next hnone =>
    cases h
    exact .allocation a (Bool.eq_false_iff.mpr hnone)

theorem allocate_ok (h : sys.Serves) (a : Allocation) : allocate sys a = pure () := by
  refine if_pos ?_
  by_contra hnone
  exact h _ (.allocation a (Bool.eq_false_iff.mpr hnone))

end Calls

/-! ## A slice -/

section Slice

variable {inst : Instance} {sys : System} {pass slice : ℕ} {m m' : Cell → UInt64}

def lane_orders (inst : Instance) (n : ℕ) : List (Order ℕ) :=
  (List.range n).flatMap fun l =>
    (if inst.threads ≤ l then [.join (l - inst.threads)] else []) ++ [.spawn l]

theorem spawn_mem_lane_orders {n l : ℕ} : .spawn l ∈ lane_orders inst n ↔ l < n := by
  unfold lane_orders
  simp only [List.mem_flatMap, List.mem_range, List.mem_append, List.mem_singleton,
    Order.spawn.injEq]
  constructor
  · rintro ⟨l', hl', hmem | rfl⟩
    · split at hmem <;> simp at hmem
    · exact hl'
  · intro hl
    exact ⟨l, hl, .inr rfl⟩

theorem lane_orders_follow (hthreads : 0 < inst.threads) (n : ℕ) :
    Follows ∅ (lane_orders inst n) := by
  induction n with
  | zero => trivial
  | succ n ih =>
    have hsplit : lane_orders inst (n + 1) = lane_orders inst n ++
        ((if inst.threads ≤ n then [.join (n - inst.threads)] else []) ++ [.spawn n]) := by
      simp [lane_orders, List.range_succ]
    rw [hsplit, follows_append]
    refine ⟨ih, ?_⟩
    have hnew : n ∉ (∅ ∪ { l | Order.spawn l ∈ lane_orders inst n } : Set ℕ) := by
      rintro (hmem | hmem)
      · exact hmem
      · exact Nat.lt_irrefl n (spawn_mem_lane_orders.mp hmem)
    split
    · refine ⟨.inr (spawn_mem_lane_orders.mpr (by omega)), hnew, trivial⟩
    · exact ⟨hnew, trivial⟩

/-- The number of the first lane that is joined at the end of a slice. -/
theorem last_joins (hlanes : inst.lanes < 2 ^ 32) (hle : inst.threads ≤ inst.lanes) :
    as_uint32 (inst.lanes - inst.threads) = inst.lanes - inst.threads :=
  as_uint32_eq (by omega) (by omega)

/-- Every thread of a slice is started once and waited for, if there are not more threads allowed
than lanes. -/
theorem slice_orders_orderly (hthreads : 0 < inst.threads) (hlanes : inst.lanes < 2 ^ 32)
    (hle : inst.threads ≤ inst.lanes) :
    Orderly (List.range inst.lanes) (slice_orders inst) := by
  have hspawn : ∀ l, .spawn l ∈ slice_orders inst ↔ l < inst.lanes := by
    intro l
    rw [slice_orders, List.mem_append, ← lane_orders, spawn_mem_lane_orders]
    simp
  refine orderly_of_follows List.nodup_range ?_ (fun l hl => List.mem_range.mpr ((hspawn l).mp hl))
    fun l hl => ?_
  · rw [slice_orders, ← lane_orders, follows_append]
    refine ⟨lane_orders_follow hthreads inst.lanes, ?_⟩
    have hjoins : ∀ ls : List ℕ, (∀ l ∈ ls, l < inst.lanes) →
        Follows (∅ ∪ { l | Order.spawn l ∈ lane_orders inst inst.lanes }) (ls.map .join) := by
      intro ls hls
      induction ls with
      | nil => trivial
      | cons l ls ih =>
        refine ⟨.inr (spawn_mem_lane_orders.mpr (hls l List.mem_cons_self)), ?_⟩
        exact ih fun l' hl' => hls l' (List.mem_cons_of_mem l hl')
    exact hjoins _ fun l hl => List.mem_range.mp (List.mem_of_mem_filter hl)
  · have hl' := List.mem_range.mp hl
    rw [slice_orders, List.mem_append]
    by_cases hlast : inst.lanes - inst.threads ≤ l
    · refine .inr (List.mem_map_of_mem (List.mem_filter.mpr ⟨hl, ?_⟩))
      rw [last_joins hlanes hle]
      exact decide_eq_true hlast
    · refine .inl (List.mem_flatMap.mpr ⟨l + inst.threads, List.mem_range.mpr (by omega), ?_⟩)
      rw [if_pos (by omega), Nat.add_sub_cancel]
      simp

theorem slice_independent (hinst : Laid inst) (hslice : slice < 4) :
    Independent (slice_body inst pass slice) (known inst pass slice) (segment inst slice)
      (List.range inst.lanes) where
  safe l hl := (@fill_segment_safe inst ⟨pass, l, slice, 0⟩ hinst (List.mem_range.mp hl)
    hslice).weaken fun _ _ _ _ => trivial
  apart _ _ _ _ hne _ hx := segments_apart hne hx

def fill_slice_alone (inst : Instance) (pass slice : ℕ) (m : Cell → UInt64) : Cell → UInt64 :=
  one_by_one (slice_body inst pass slice) (List.range inst.lanes) m

theorem made_orders_eq (h : ¬sys.Fails .ARGON2_THREAD_FAIL) (inst : Instance) (pass slice : ℕ) :
    made_orders inst sys pass slice = slice_orders inst := by
  refine List.takeWhile_eq_self_iff.mpr fun order _ => ?_
  rw [Bool.not_eq_true', ← Bool.not_eq_true]
  intro hrefused
  exact h (.thread pass slice order hrefused)

theorem fill_slice_ok (h : (fill_slice inst sys pass slice m).run = some (.ok m')) :
    (((Pool.start (slice_orders inst) m).play (slice_body inst pass slice)
        (sys.schedule pass slice)).orders = []) ∧
      m' = ((Pool.start (slice_orders inst) m).play (slice_body inst pass slice)
        (sys.schedule pass slice)).memory := by
  simp only [fill_slice] at h
  split at h
  · cases h
  · next hend =>
    split at h
    · cases h
    · next hmade =>
      have hall : made_orders inst sys pass slice = slice_orders inst :=
        (List.takeWhile_prefix _).eq_of_length_le (Nat.not_lt.mp hmade)
      rw [hall] at h hend
      cases h
      exact ⟨not_not.mp hend, rfl⟩

theorem fill_slice_blameless (inst : Instance) (sys : System) (pass slice : ℕ)
    (m : Cell → UInt64) : Blameless sys (fill_slice inst sys pass slice m) := by
  intro e h
  simp only [fill_slice] at h
  split at h
  · cases h
  · split at h
    · next hmade =>
      cases h
      by_contra hserved
      rw [made_orders_eq hserved] at hmade
      exact Nat.lt_irrefl _ hmade
    · cases h

theorem fill_slice_eq (hinst : Laid inst) (hslice : slice < 4) (hthreads : 0 < inst.threads)
    (hlanes : inst.lanes < 2 ^ 32) (hle : inst.threads ≤ inst.lanes)
    (h : (fill_slice inst sys pass slice m).run = some (.ok m')) :
    m' = fill_slice_alone inst pass slice m := by
  obtain ⟨hend, rfl⟩ := fill_slice_ok h
  exact play_one_by_one (slice_orders_orderly hthreads hlanes hle)
    (slice_independent hinst hslice) hend

def scheduled (sys : System) (schedule : ℕ → ℕ → List (Option ℕ)) : System :=
  { sys with schedule := schedule }

theorem scheduled_serves (h : sys.Serves) (schedule : ℕ → ℕ → List (Option ℕ)) :
    (scheduled sys schedule).Serves := by
  intro e hfails
  refine h e ?_
  cases hfails with
  | allocation a hnone => exact .allocation a hnone
  | thread pass slice order hrefused => exact .thread pass slice order hrefused

theorem fill_slice_served (h : sys.Serves) (hend : ((Pool.start (slice_orders inst) m).play
      (slice_body inst pass slice) (sys.schedule pass slice)).orders = []) :
    fill_slice inst sys pass slice m = pure ((Pool.start (slice_orders inst) m).play
      (slice_body inst pass slice) (sys.schedule pass slice)).memory := by
  simp only [fill_slice, made_orders_eq (h _), hend, ne_eq, not_true, if_false, Nat.lt_irrefl]

theorem fill_slice_completes (hinst : Laid inst) (hslice : slice < 4) (hthreads : 0 < inst.threads)
    (hlanes : inst.lanes < 2 ^ 32) (hle : inst.threads ≤ inst.lanes) (m : Cell → UInt64) :
    ∃ schedule, ∀ sys : System, sys.Serves → sys.schedule pass slice = schedule →
      fill_slice inst sys pass slice m = pure (fill_slice_alone inst pass slice m) := by
  obtain ⟨schedule, hend⟩ := play_completes (slice_body inst pass slice)
    (slice_orders_orderly hthreads hlanes hle) (start_under (slice_orders inst) m)
  refine ⟨schedule, ?_⟩
  rintro sys hserves rfl
  rw [fill_slice_served hserves hend]
  exact congrArg pure (play_one_by_one (slice_orders_orderly hthreads hlanes hle)
    (slice_independent hinst hslice) hend)

/-- Memories that agree where a slice is ready agree where the next one is. -/
theorem fill_slice_agree (hinst : Laid inst) (hslice : slice < 4)
    (h : ∀ x ∈ ready inst pass slice, m x = m' x) :
    ∀ x ∈ ready inst pass (slice + 1),
      fill_slice_alone inst pass slice m x = fill_slice_alone inst pass slice m' x := by
  intro x hx
  have hind : Independent (slice_body inst pass slice) (known inst pass slice)
      (segment inst slice) (List.range inst.lanes) := slice_independent hinst hslice
  obtain ⟨hdid, hleft⟩ := one_by_one_end m List.nodup_range hind
  obtain ⟨hdid', hleft'⟩ := one_by_one_end m' List.nodup_range hind
  by_cases hfilled : ∃ l ∈ List.range inst.lanes, x ∈ segment inst slice l
  · obtain ⟨l, hl, hxl⟩ := hfilled
    have hsafe := @fill_segment_safe inst ⟨pass, l, slice, 0⟩ hinst (List.mem_range.mp hl) hslice
    obtain ⟨-, E, hE, hagree⟩ := hsafe.agree (Set.Subset.refl _) fun y hy => h y hy.1
    rw [fill_slice_alone, fill_slice_alone, hdid l hl x hxl, hdid' l hl x hxl]
    exact hagree x (.inr (hE (.inr hxl)))
  · have hnone : ∀ l ∈ List.range inst.lanes, x ∉ segment inst slice l :=
      fun l hl hxl => hfilled ⟨l, hl, hxl⟩
    rw [fill_slice_alone, fill_slice_alone, hleft x hnone, hleft' x hnone]
    refine h x ((ready_next hinst hx).resolve_right ?_)
    rintro ⟨l, hl, hxl⟩
    exact hnone l (List.mem_range.mpr hl) hxl

end Slice

/-! ## All passes -/

theorem foldlM_range_eq {σ : Type} {f : σ → ℕ → Call σ} {g : σ → ℕ → σ} {n : ℕ} {s t : σ}
    (hstep : ∀ a b k, k < n → (f a k).run = some (.ok b) → b = g a k)
    (h : ((List.range n).foldlM f s).run = some (.ok t)) : t = (List.range n).foldl g s := by
  induction n generalizing t with
  | zero =>
    cases h
    rfl
  | succ n ih =>
    rw [List.range_succ, List.foldlM_append, bind_run_ok] at h
    obtain ⟨u, hu, ht⟩ := h
    have hbefore := ih (fun a b k hk => hstep a b k (Nat.lt_succ_of_lt hk)) hu
    have hlast : (f u n).run = some (.ok t) := by simpa using ht
    rw [List.range_succ, List.foldl_append, ← hbefore]
    exact hstep u t n (Nat.lt_succ_self n) hlast

theorem foldlM_range_pure {σ : Type} {f : σ → ℕ → Call σ} {g : σ → ℕ → σ} {n : ℕ} {s : σ}
    (hstep : ∀ k < n, f ((List.range k).foldl g s) k = pure (g ((List.range k).foldl g s) k)) :
    (List.range n).foldlM f s = pure ((List.range n).foldl g s) := by
  induction n with
  | zero => rfl
  | succ n ih =>
    rw [List.range_succ, List.foldlM_append, ih fun k hk => hstep k (Nat.lt_succ_of_lt hk),
      List.foldl_append]
    simpa using hstep n (Nat.lt_succ_self n)

theorem foldl_range_rel {σ : Type} {g : σ → ℕ → σ} {R : ℕ → σ → σ → Prop} {n : ℕ} {s t : σ}
    (hstep : ∀ k < n, ∀ a b, R k a b → R (k + 1) (g a k) (g b k)) (h : R 0 s t) :
    R n ((List.range n).foldl g s) ((List.range n).foldl g t) := by
  induction n with
  | zero => exact h
  | succ n ih =>
    rw [List.range_succ, List.foldl_append, List.foldl_append]
    exact hstep n (Nat.lt_succ_self n) _ _ (ih fun k hk => hstep k (Nat.lt_succ_of_lt hk))

/-- No more threads run at a time than there are lanes. -/
structure Staffed (inst : Instance) : Prop where
  laid : Laid inst
  some : 0 < inst.threads
  enough : inst.threads ≤ inst.lanes
  fits : inst.lanes < 2 ^ 32

section Passes

variable {inst : Instance} {sys : System} {pass : ℕ} {m m' : Cell → UInt64}

def fill_pass_alone (inst : Instance) (pass : ℕ) (m : Cell → UInt64) : Cell → UInt64 :=
  (List.range ARGON2_SYNC_POINTS).foldl (fun m s => fill_slice_alone inst pass s m) m

/-- The lanes of every slice one after the other. -/
def fill_alone (inst : Instance) (m : Cell → UInt64) : Cell → UInt64 :=
  (List.range inst.passes).foldl (fun m r => fill_pass_alone inst r m) m

theorem fill_pass_eq (h : Staffed inst)
    (hfill : (fill_pass inst sys pass m).run = some (.ok m')) :
    m' = fill_pass_alone inst pass m :=
  foldlM_range_eq (fun _ _ _ hs hslice => fill_slice_eq h.laid hs h.some h.fits h.enough hslice)
    hfill

theorem fill_pass_completes (h : Staffed inst) (pass : ℕ) (m : Cell → UInt64) :
    ∃ schedule, ∀ sys : System, sys.Serves → sys.schedule pass = schedule →
      fill_pass inst sys pass m = pure (fill_pass_alone inst pass m) := by
  have hslice : ∀ s, ∃ schedule, s < 4 → ∀ sys : System, sys.Serves →
      sys.schedule pass s = schedule → fill_slice inst sys pass s
        ((List.range s).foldl (fun m s => fill_slice_alone inst pass s m) m) =
      pure (fill_slice_alone inst pass s
        ((List.range s).foldl (fun m s => fill_slice_alone inst pass s m) m)) := by
    intro s
    by_cases hs : s < 4
    · obtain ⟨schedule, hfill⟩ := @fill_slice_completes inst pass s h.laid hs h.some h.fits
        h.enough ((List.range s).foldl (fun m s => fill_slice_alone inst pass s m) m)
      exact ⟨schedule, fun _ => hfill⟩
    · exact ⟨[], fun h => absurd h hs⟩
  choose schedule hschedule using hslice
  refine ⟨schedule, ?_⟩
  rintro sys hserves rfl
  exact foldlM_range_pure fun s hs => hschedule s hs sys hserves rfl

theorem fill_memory_blocks_passes (hlanes : 0 < inst.lanes)
    (h : (fill_memory_blocks inst sys m).run = some (.ok m')) :
    ((List.range inst.passes).foldlM (fun memory r => fill_pass inst sys r memory) m).run =
      some (.ok m') := by
  rw [fill_memory_blocks, if_neg hlanes.ne'] at h
  obtain ⟨-, -, h⟩ := bind_run_ok.mp h
  obtain ⟨-, -, h⟩ := bind_run_ok.mp h
  exact h

theorem fill_memory_blocks_served (hlanes : 0 < inst.lanes) (h : sys.Serves) (m : Cell → UInt64) :
    fill_memory_blocks inst sys m =
      (List.range inst.passes).foldlM (fun memory r => fill_pass inst sys r memory) m := by
  rw [fill_memory_blocks, if_neg hlanes.ne', allocate_ok h, allocate_ok h]
  rfl

theorem fill_memory_blocks_blameless (hlanes : 0 < inst.lanes) (sys : System)
    (m : Cell → UInt64) : Blameless sys (fill_memory_blocks inst sys m) := by
  rw [fill_memory_blocks, if_neg hlanes.ne']
  refine (allocate_blameless sys .thread).bind fun _ =>
    (allocate_blameless sys .thr_data).bind fun _ => ?_
  refine Blameless.foldlM (fun memory r => ?_) _ m
  exact Blameless.foldlM (fun memory s => fill_slice_blameless inst sys r s memory) _ memory

theorem fill_memory_blocks_eq (h : Staffed inst)
    (hfill : (fill_memory_blocks inst sys m).run = some (.ok m')) : m' = fill_alone inst m :=
  foldlM_range_eq (fun _ _ _ _ hpass => fill_pass_eq h hpass)
    (fill_memory_blocks_passes h.laid.lanes hfill)

theorem fill_memory_blocks_completes (h : Staffed inst) (hserves : sys.Serves)
    (m : Cell → UInt64) : ∃ schedule,
    fill_memory_blocks inst (scheduled sys schedule) m = pure (fill_alone inst m) := by
  have hpass := fun r => fill_pass_completes h r
    ((List.range r).foldl (fun m r => fill_pass_alone inst r m) m)
  choose schedule hschedule using hpass
  refine ⟨schedule, ?_⟩
  have hserves' := scheduled_serves hserves schedule
  rw [fill_memory_blocks_served h.laid.lanes hserves']
  exact foldlM_range_pure fun r _ => hschedule r _ hserves' rfl

theorem fill_pass_agree (hinst : Laid inst) (h : ∀ x ∈ ready inst pass 0, m x = m' x) :
    ∀ x ∈ ready inst (pass + 1) 0,
      fill_pass_alone inst pass m x = fill_pass_alone inst pass m' x := by
  intro x hx
  have hfour := @foldl_range_rel _ (fun m s => fill_slice_alone inst pass s m)
    (fun s m m' => ∀ x ∈ ready inst pass s, m x = m' x) 4 m m'
    (fun _ hs _ _ hagree => fill_slice_agree hinst hs hagree) h
  exact hfour x (ready_pass hinst hx)

/-- The filled memory depends on the first two blocks of every lane only. -/
theorem fill_alone_agree (hinst : Laid inst) (h : ∀ x ∈ ready inst 0 0, m x = m' x) :
    ∀ x ∈ ready inst inst.passes 0, fill_alone inst m x = fill_alone inst m' x :=
  @foldl_range_rel _ (fun m r => fill_pass_alone inst r m)
    (fun r m m' => ∀ x ∈ ready inst r 0, m x = m' x) inst.passes m m'
    (fun _ _ _ _ hagree => fill_pass_agree hinst hagree) h

theorem fill_alone_frame (hinst : Laid inst) (m : Cell → UInt64) {x : Cell}
    (hx : inst.memory_blocks ≤ x.1) : fill_alone inst m x = m x := by
  have hslice : ∀ pass slice, slice < 4 → ∀ m, fill_slice_alone inst pass slice m x = m x := by
    intro pass slice hs m
    refine (one_by_one_end m List.nodup_range (slice_independent hinst hs)).2 x ?_
    rintro l hl ⟨hlane, -, -⟩
    rw [hinst.blocks] at hx
    have hl' := (Nat.le_div_iff_mul_le (by
      have hseg := hinst.segment; have hlane := hinst.lane; omega)).mpr hx
    have hlt := List.mem_range.mp hl
    omega
  have hpass : ∀ pass m, fill_pass_alone inst pass m x = m x := fun pass m =>
    @foldl_range_rel _ (fun m s => fill_slice_alone inst pass s m) (fun _ f _ => f x = m x) 4 m m
      (fun s hs f _ hf => (hslice pass s hs f).trans hf) rfl
  exact @foldl_range_rel _ (fun m r => fill_pass_alone inst r m) (fun _ f _ => f x = m x)
    inst.passes m m (fun r _ f _ hf => (hpass r f).trans hf) rfl

/-- However the threads of every slice take turns, the blocks are filled alike, and from the first
two blocks of every lane alone; nothing else is written. And where the system serves, the threads
can always take turns so that all of them finish. -/
theorem fill_memory_blocks_interleaved (h : Staffed inst) (hpasses : inst.passes ≠ 0)
    (hfirst : ∀ x ∈ ready inst 0 0, m x = m' x) :
    (∀ sys : System, sys.Serves → ∃ schedule f,
      (fill_memory_blocks inst (scheduled sys schedule) m).run = some (.ok f)) ∧
    ∀ sys sys' f f', (fill_memory_blocks inst sys m).run = some (.ok f) →
      (fill_memory_blocks inst sys' m').run = some (.ok f') →
      ∀ x : Cell, if x.1 < inst.memory_blocks then f x = f' x else f x = m x ∧ f' x = m' x := by
  constructor
  · intro sys hserves
    obtain ⟨schedule, hfill⟩ := fill_memory_blocks_completes h hserves m
    exact ⟨schedule, _, congrArg ExceptT.run hfill⟩
  rintro sys sys' f f' hf hf' x
  rw [fill_memory_blocks_eq h hf, fill_memory_blocks_eq h hf']
  by_cases hx : x.1 < inst.memory_blocks
  · rw [if_pos hx]
    exact fill_alone_agree h.laid hfirst x ⟨hx, fun hzero => absurd hzero hpasses⟩
  · rw [if_neg hx]
    exact ⟨fill_alone_frame h.laid m (Nat.not_lt.mp hx),
      fill_alone_frame h.laid m' (Nat.not_lt.mp hx)⟩

def two_lanes : Instance := ⟨0x13, 1, 16, 2, 8, 2, 2, .Argon2_i⟩

theorem two_lanes_staffed : Staffed two_lanes :=
  ⟨⟨by decide, by decide, by decide, by decide, by decide⟩, by decide, by decide, by decide⟩

def willing (schedule : ℕ → ℕ → List (Option ℕ)) : System :=
  ⟨fun _ => true, fun _ => 0, fun _ _ _ => false, schedule⟩

theorem willing_serves (schedule : ℕ → ℕ → List (Option ℕ)) : (willing schedule).Serves := by
  intro e hfails
  cases hfails with
  | allocation a h => cases h
  | thread pass slice order h => cases h

/-- A memory of zeros and one that differs from it in the last block, filled under any two
schedules. -/
theorem fill_memory_blocks_interleaved_two :
    (∃ schedule f, (fill_memory_blocks two_lanes (willing schedule) fun _ => 0).run =
      some (.ok f)) ∧
    ∀ schedule schedule' f f',
      (fill_memory_blocks two_lanes (willing schedule) fun _ => 0).run = some (.ok f) →
      (fill_memory_blocks two_lanes (willing schedule')
        fun x => if x = (15, 0) then 1 else 0).run = some (.ok f') →
      f (15, 0) = f' (15, 0) ∧ f (15, 127) = f' (15, 127) := by
  have hfirst : ∀ x ∈ ready two_lanes 0 0,
      (0 : UInt64) = if x = ((15, 0) : Cell) then 1 else 0 := by
    rintro x ⟨-, hready⟩
    rw [if_neg]
    rintro rfl
    exact absurd (hready rfl) (by decide)
  have hruns := fill_memory_blocks_interleaved two_lanes_staffed (by decide) hfirst
  constructor
  · exact hruns.1 (willing fun _ _ => []) (willing_serves _)
  · intro schedule schedule' f f' hf hf'
    exact ⟨hruns.2 _ _ f f' hf hf' (15, 0), hruns.2 _ _ f f' hf hf' (15, 127)⟩

end Passes

/-! ## More threads than lanes -/

section Unjoined

variable {inst : Instance} {m : Cell → UInt64}

theorem slice_orders_unjoined (hlanes : inst.lanes < inst.threads)
    (hthreads : inst.threads ≤ 2 ^ 32) :
    slice_orders inst = (List.range inst.lanes).map .spawn := by
  have hlast : as_uint32 (inst.lanes - inst.threads) = 2 ^ 32 + inst.lanes - inst.threads := by
    rw [as_uint32]
    omega
  have hnone : (List.range inst.lanes).filter
      (as_uint32 (inst.lanes - inst.threads) ≤ ·) = [] := by
    refine List.filter_eq_nil_iff.mpr fun l hl => ?_
    have hl' := List.mem_range.mp hl
    rw [hlast]
    simp only [decide_eq_true_eq]
    omega
  have hspawn : ∀ l ∈ List.range inst.lanes,
      (if inst.threads ≤ l then [Order.join (l - inst.threads)] else []) ++ [Order.spawn l] =
        [Order.spawn l] := by
    intro l hl
    have hl' := List.mem_range.mp hl
    rw [if_neg (by omega), List.nil_append]
  rw [slice_orders, hnone, List.map_nil, List.append_nil, List.flatMap_congr hspawn]
  exact List.map_eq_flatMap.symm

/-- Orders that only start threads are gone through without a step of a thread. -/
theorem play_spawns (body : ℕ → Access Unit) (ls : List ℕ) (running : ℕ → Option (Access Unit)) :
    ∃ running', Pool.play body (List.replicate ls.length none) ⟨ls.map .spawn, running, m⟩ =
      ⟨[], running', m⟩ := by
  induction ls generalizing running with
  | nil => exact ⟨running, rfl⟩
  | cons l ls ih => exact ih (Function.update running l (some (body l)))

/-- With more threads than lanes the filling may return with every block as it was. -/
theorem fill_unjoined (hinst : 0 < inst.lanes) (hlanes : inst.lanes < inst.threads)
    (hthreads : inst.threads ≤ 2 ^ 32) (m : Cell → UInt64) :
    ∃ sys, fill_memory_blocks inst sys m = pure m := by
  refine ⟨willing fun _ _ => List.replicate inst.lanes none, ?_⟩
  have hserves := willing_serves fun _ _ => List.replicate inst.lanes none
  have hslice : ∀ pass slice,
      fill_slice inst (willing fun _ _ => List.replicate inst.lanes none) pass slice m =
        pure m := by
    intro pass slice
    obtain ⟨running, hplay⟩ := play_spawns (slice_body inst pass slice) (List.range inst.lanes)
      (m := m) fun _ => none
    rw [List.length_range, ← slice_orders_unjoined hlanes hthreads] at hplay
    rw [fill_slice_served hserves (congrArg Pool.orders hplay)]
    exact congrArg (fun pool => pure (Pool.memory pool)) hplay
  have hfold : ∀ (f : (Cell → UInt64) → ℕ → Call (Cell → UInt64)) (n : ℕ),
      (∀ k, f m k = pure m) → (List.range n).foldlM f m = pure m := by
    intro f n hf
    have hid := @foldlM_range_pure _ f (fun a _ => a) n m fun k _ => by
      rw [List.foldl_fixed]
      exact hf k
    rwa [List.foldl_fixed] at hid
  rw [fill_memory_blocks_served hinst hserves]
  exact hfold _ _ fun r => hfold _ _ fun s => hslice r s

/-- The filled memory is the same under every schedule if and only if no more threads are allowed
than there are lanes. -/
theorem fill_memory_blocks_determined_iff (hinst : Laid inst) (hpasses : inst.passes ≠ 0)
    (hlanes : inst.lanes < 2 ^ 32) (hthreads : 0 < inst.threads ∧ inst.threads < 2 ^ 32) :
    (∀ m sys f, (fill_memory_blocks inst sys m).run = some (.ok f) → f = fill_alone inst m) ↔
      inst.threads ≤ inst.lanes := by
  constructor
  · intro h
    by_contra hmore
    have hsame : ∀ m, m = fill_alone inst m := by
      intro m
      obtain ⟨sys, hfill⟩ := fill_unjoined hinst.lanes (Nat.not_le.mp hmore) hthreads.2.le m
      exact h m sys m (congrArg ExceptT.run hfill)
    -- the third block of a lane is computed from the first two
    have hseg := hinst.segment
    have hlane := hinst.lane
    have hcol : 2 < inst.lane_length := by omega
    have hthird := @block_lt inst 0 2 hinst hinst.lanes hcol
    have hplace := (@block_place inst 0 2 hcol).2
    rw [Nat.zero_mul, Nat.zero_add] at hthird hplace
    have hfirst : ∀ x ∈ ready inst 0 0,
        (0 : UInt64) = if x = ((2, 0) : Cell) then 1 else 0 := by
      rintro x ⟨-, hready⟩
      have hor := hready rfl
      rw [Nat.zero_mul] at hor
      rw [if_neg]
      rintro rfl
      simp only [hplace] at hor
      omega
    have hagree := fill_alone_agree (m := fun _ => 0) hinst hfirst (2, 0)
      ⟨hthird, fun hzero => absurd hzero hpasses⟩
    rw [← hsame, ← hsame] at hagree
    exact absurd hagree (by decide)
  · intro hle m sys f hfill
    exact fill_memory_blocks_eq ⟨hinst, hthreads.1, hle, hlanes⟩ hfill

theorem fill_memory_blocks_determined_two :
    two_lanes.threads ≤ two_lanes.lanes ∧ ∀ m sys f,
      (fill_memory_blocks two_lanes sys m).run = some (.ok f) → f = fill_alone two_lanes m :=
  ⟨by decide, (fill_memory_blocks_determined_iff two_lanes_staffed.laid (by decide) (by decide)
    (by decide)).mpr (by decide)⟩

end Unjoined

/-! ## The tag -/

section Tag

variable {context : Argon2Context} {type : Argon2Type} {inst : Instance}

structure Checked (context : Argon2Context) : Prop where
  outlen : 4 ≤ (context.outlen : ℕ)
  memory : 8 * (context.lanes : ℕ) ≤ context.m_cost
  passes : 0 < (context.t_cost : ℕ)
  lanes : 0 < (context.lanes : ℕ)
  most : (context.lanes : ℕ) ≤ ARGON2_MAX_LANES
  threads : 0 < (context.threads : ℕ)

theorem refuse_bind_ok {failed : Prop} [Decidable failed] {e : Argon2ErrorCode} {α : Type}
    {rest : Unit → Except Argon2ErrorCode α} {a : α} :
    (refuse failed e >>= rest) = .ok a ↔ ¬failed ∧ rest () = .ok a := by
  unfold refuse
  by_cases h : failed
  · rw [if_pos h]
    exact ⟨fun hok => (nomatch hok), fun hok => absurd h hok.1⟩
  · rw [if_neg h]
    exact ⟨fun hok => ⟨h, hok⟩, fun hok => hok.2⟩

theorem refuse_ok {failed : Prop} [Decidable failed] {e : Argon2ErrorCode} :
    refuse failed e = .ok () ↔ ¬failed := by
  unfold refuse
  by_cases h : failed <;> simp [h]

theorem checked_of_valid (h : validate_inputs context = .ok ()) : Checked context := by
  simp only [validate_inputs, refuse_bind_ok, refuse_ok] at h
  obtain ⟨-, hout, -, -, -, -, -, -, hmem, htime, hlanes, hmost, hthreads, -⟩ := h
  have hmost' := Nat.not_lt.mp hmost
  have height : as_uint32 (8 * context.lanes) = 8 * context.lanes := by
    simp only [ARGON2_MAX_LANES] at hmost'
    exact as_uint32_eq (by omega) (by omega)
  rw [height] at hmem
  simp only [ARGON2_MIN_OUTLEN] at hout
  exact ⟨by omega, by omega, by omega, by omega, hmost', by omega⟩

theorem argon2_instance_laid (h : Checked context) (type : Argon2Type) :
    Laid (argon2_instance context type) := by
  obtain ⟨-, hmem, -, hlanes, hmost, -⟩ := h
  have hm := context.m_cost.isLt
  simp only [ARGON2_MAX_LANES] at hmost
  have hleast : as_uint32 (2 * ARGON2_SYNC_POINTS * context.lanes) = 8 * context.lanes := by
    simp only [ARGON2_SYNC_POINTS]
    exact as_uint32_eq (by omega) (by omega)
  have hrow : as_uint32 (context.lanes * ARGON2_SYNC_POINTS) = context.lanes * 4 := by
    simp only [ARGON2_SYNC_POINTS]
    exact as_uint32_eq (by omega) (by omega)
  have hblocks : (if (context.m_cost : ℕ) < 8 * context.lanes then 8 * (context.lanes : ℕ)
      else context.m_cost) = context.m_cost := if_neg (Nat.not_lt.mpr hmem)
  have hseg : (context.m_cost : ℕ) / (context.lanes * 4) * (context.lanes * 4) ≤ context.m_cost :=
    Nat.div_mul_le_self _ _
  have htwo : 2 ≤ (context.m_cost : ℕ) / (context.lanes * 4) := by
    rw [Nat.le_div_iff_mul_le (by omega)]
    omega
  generalize hs : (context.m_cost : ℕ) / (context.lanes * 4) = seg at hseg htwo
  have hfour : seg * 4 ≤ seg * (context.lanes * 4) := Nat.mul_le_mul_left seg (by omega)
  have hlane : as_uint32 (seg * ARGON2_SYNC_POINTS) = 4 * seg := by
    simp only [ARGON2_SYNC_POINTS]
    exact as_uint32_eq (by omega) (by omega)
  have hall : as_uint32 (seg * (context.lanes * 4 : ℕ)) = seg * (context.lanes * 4) :=
    as_uint32_eq (by push_cast; rfl) (by omega)
  refine ⟨hlanes, ?_, ?_, ?_, ?_⟩
  · simp only [argon2_instance, hleast, hblocks, hrow, hs]
    exact htwo
  · simp only [argon2_instance, hleast, hblocks, hrow, hs]
    exact hlane
  · simp only [argon2_instance, hleast, hblocks, hrow, hs, hlane, hall]
    rw [Nat.mul_left_comm, Nat.mul_comm seg 4]
  · simp only [argon2_instance, hleast, hblocks, hrow, hs, hall]
    omega

theorem argon2_instance_staffed (h : Checked context) (hle : context.threads ≤ context.lanes)
    (type : Argon2Type) : Staffed (argon2_instance context type) :=
  ⟨argon2_instance_laid h type, h.threads, hle, context.lanes.isLt⟩

theorem initial_hash_eq (context : Argon2Context) (type : Argon2Type) :
    initial_hash context type = some (Blake2b.hash 64 (initial_input context type).flatten) :=
  Blake2b.hash_pieces (by decide) (initial_input context type)

theorem load_block_safe {D : Set Cell} (dst : ℕ) (input : Bytes) :
    (load_block dst input).Safe Set.univ D fun E _ => ∀ w, (dst, w) ∈ E := by
  have hwords : (load_block dst input).Safe Set.univ D
      fun E _ => ∀ w ∈ List.finRange 128, (dst, w) ∈ E := by
    refine safe_forM (fun w E F hEF hw => hEF hw) fun E _ w _ => ?_
    exact ⟨Set.mem_univ _, Set.mem_insert _ _⟩
  exact hwords.weaken fun E _ _ hE w => hE w (List.mem_finRange w)

theorem fill_first_blocks_safe (hinst : Laid inst) (blockhash : Bytes) :
    (fill_first_blocks inst blockhash).Safe Set.univ ∅ fun E _ => ready inst 0 0 ⊆ E := by
  have hseg := hinst.segment
  have hlane := hinst.lane
  have hfits := hinst.fits
  have hlanes : (fill_first_blocks inst blockhash).Safe Set.univ ∅ fun E _ =>
      ∀ l ∈ List.range inst.lanes, ∀ w, (l * inst.lane_length + 0, w) ∈ E ∧
        (l * inst.lane_length + 1, w) ∈ E := by
    refine safe_forM (fun l E F hEF h w => ⟨hEF (h w).1, hEF (h w).2⟩) fun E _ l hl => ?_
    have hl' := List.mem_range.mp hl
    have hbefore := @block_lt inst l 1 hinst hl' (by omega)
    have hzero : as_uint32 (l * inst.lane_length + 0) = l * inst.lane_length + 0 :=
      as_uint32_eq (by omega) (by omega)
    have hone : as_uint32 (l * inst.lane_length + 1) = l * inst.lane_length + 1 :=
      as_uint32_eq (by omega) (by omega)
    rw [hzero, hone, safe_bind]
    refine (load_block_safe _ _).weaken fun E₁ _ _ h₁ => ?_
    exact (load_block_safe _ _).weaken fun E₂ _ hE h₂ w => ⟨hE (h₁ w), h₂ w⟩
  refine hlanes.weaken fun E _ _ hE => ?_
  rintro ⟨b, w⟩ ⟨hb, hready⟩
  have hcol : b % inst.lane_length < 2 := by
    have hor : b % inst.lane_length < 2 ∨ b % inst.lane_length < 0 * inst.segment_length :=
      hready rfl
    omega
  have hl : b / inst.lane_length < inst.lanes := by
    refine Nat.div_lt_of_lt_mul ?_
    rw [Nat.mul_comm, ← hinst.blocks]
    exact hb
  have hplace : b = b / inst.lane_length * inst.lane_length + b % inst.lane_length := by
    rw [Nat.mul_comm]
    exact (Nat.div_add_mod b inst.lane_length).symm
  obtain ⟨h0, h1⟩ := hE _ (List.mem_range.mpr hl) w
  rw [hplace]
  rcases Nat.le_one_iff_eq_zero_or_eq_one.mp (Nat.le_of_lt_succ hcol) with hcol | hcol
  · rw [hcol]
    exact h0
  · rw [hcol]
    exact h1

theorem last_block_safe (hinst : Laid inst) {D : Set Cell}
    (hD : ∀ b < inst.memory_blocks, ∀ w, (b, w) ∈ D) :
    (last_block inst).Safe ∅ D fun _ _ => True := by
  have hseg := hinst.segment
  have hlane := hinst.lane
  have hfits := hinst.fits
  have hlast : ∀ l < inst.lanes,
      l * inst.lane_length + (inst.lane_length - 1) < inst.memory_blocks :=
    fun l hl => block_lt hinst hl (by omega)
  unfold last_block
  rw [safe_bind]
  have hfirst : as_uint32 (inst.lane_length - 1) =
      0 * inst.lane_length + (inst.lane_length - 1) := by
    have hzero := hlast 0 hinst.lanes
    exact as_uint32_eq (by omega) (by omega)
  rw [hfirst]
  refine (copy_block_safe (hD _ (hlast 0 hinst.lanes))).weaken fun E₁ blockhash _ h₁ => ?_
  refine (safe_foldlM (fun E b l hl hE => ?_) blockhash h₁).weaken fun _ _ _ _ => trivial
  have hl' : l < inst.lanes := by
    obtain ⟨hge, hlt⟩ := List.mem_range'_1.mp hl
    omega
  have hplace : as_uint32 (l * inst.lane_length + (inst.lane_length - 1)) =
      l * inst.lane_length + (inst.lane_length - 1) := by
    have hthere := hlast l hl'
    exact as_uint32_eq (by push_cast; omega) (by omega)
  rw [hplace]
  exact (xor_block_safe (fun w => hE (hD _ (hlast l hl') w)) b).weaken fun F _ _ hF => hE.trans hF

/-- The tag that one lane after the other gives, from a memory of zeros. -/
def argon2_tag (context : Argon2Context) (type : Argon2Type) : Bytes :=
  let inst := argon2_instance context type
  let blockhash := Blake2b.hash 64 (initial_input context type).flatten
  let memory := fill_alone inst ((fill_first_blocks inst blockhash).exec fun _ => 0).2
  Blake2b.expand context.outlen (store_block ((last_block inst).exec memory).1)

theorem last_block_alone (h : Checked context) (type : Argon2Type) (blockhash : Bytes)
    (memory : Cell → UInt64) :
    ((last_block (argon2_instance context type)).exec (fill_alone (argon2_instance context type)
      ((fill_first_blocks (argon2_instance context type) blockhash).exec memory).2)).1 =
    ((last_block (argon2_instance context type)).exec (fill_alone (argon2_instance context type)
      ((fill_first_blocks (argon2_instance context type) blockhash).exec fun _ => 0).2)).1 := by
  have hinst := argon2_instance_laid h type
  have hpasses : (argon2_instance context type).passes ≠ 0 := Nat.pos_iff_ne_zero.mp h.passes
  have hnothing : ∀ x ∈ (∅ : Set Cell), memory x = (fun _ => 0 : Cell → UInt64) x :=
    fun x hx => hx.elim
  obtain ⟨-, E, hE, hfirst⟩ := (fill_first_blocks_safe hinst blockhash).agree
    (Set.Subset.refl ∅) hnothing
  have hfilled := fill_alone_agree hinst fun x hx => hfirst x (.inr (hE hx))
  have hsafe := @last_block_safe (argon2_instance context type) hinst
    (ready (argon2_instance context type) (argon2_instance context type).passes 0)
    fun b hb w => ⟨hb, fun hzero => absurd hzero hpasses⟩
  exact (hsafe.agree (Set.Subset.refl _) hfilled).1

theorem argon2_ctx_eq (type : Argon2Type) (hvalid : validate_inputs context = .ok ())
    (sys : System) : argon2_ctx context type sys =
      allocate sys .memory >>= fun _ =>
        fill_memory_blocks (argon2_instance context type) sys
          ((fill_first_blocks (argon2_instance context type)
            (Blake2b.hash 64 (initial_input context type).flatten)).exec sys.memory).2 >>=
        fun memory => pure (Blake2b.expand context.outlen
          (store_block ((last_block (argon2_instance context type)).exec memory).1)) := by
  have hfour := (checked_of_valid hvalid).outlen
  have hout : 0 < (context.outlen : ℕ) := by omega
  simp only [argon2_ctx, hvalid, initial_hash_eq, finalize,
    Blake2b.blake2b_long_eq hout context.outlen.isLt]
  rfl

theorem argon2_tag_length (type : Argon2Type) (hvalid : validate_inputs context = .ok ()) :
    (argon2_tag context type).length = context.outlen := by
  have hfour := (checked_of_valid hvalid).outlen
  exact Blake2b.expand_length (by omega) _

theorem argon2_ctx_ok {sys : System} {out : Bytes} (hvalid : validate_inputs context = .ok ())
    (hthreads : context.threads ≤ context.lanes)
    (h : (argon2_ctx context type sys).run = some (.ok out)) : out = argon2_tag context type := by
  have hchecked := checked_of_valid hvalid
  rw [argon2_ctx_eq type hvalid] at h
  obtain ⟨-, -, h⟩ := bind_run_ok.mp h
  obtain ⟨filled, hfill, hout⟩ := bind_run_ok.mp h
  rw [fill_memory_blocks_eq (argon2_instance_staffed hchecked hthreads type) hfill,
    last_block_alone hchecked type] at hout
  cases hout
  rfl

theorem argon2_ctx_blameless (type : Argon2Type) (hvalid : validate_inputs context = .ok ())
    (sys : System) : Blameless sys (argon2_ctx context type sys) := by
  rw [argon2_ctx_eq type hvalid]
  refine (allocate_blameless sys .memory).bind fun _ => ?_
  have hlanes := (argon2_instance_laid (checked_of_valid hvalid) type).lanes
  refine (fill_memory_blocks_blameless hlanes sys _).bind fun memory => ?_
  exact pure_blameless sys _

theorem argon2_ctx_completes {sys : System} (type : Argon2Type)
    (hvalid : validate_inputs context = .ok ()) (hthreads : context.threads ≤ context.lanes)
    (hserves : sys.Serves) : ∃ schedule,
    argon2_ctx context type (scheduled sys schedule) = pure (argon2_tag context type) := by
  have hchecked := checked_of_valid hvalid
  obtain ⟨schedule, hfill⟩ := fill_memory_blocks_completes
    (argon2_instance_staffed hchecked hthreads type) hserves
    ((fill_first_blocks (argon2_instance context type)
      (Blake2b.hash 64 (initial_input context type).flatten)).exec sys.memory).2
  refine ⟨schedule, ?_⟩
  rw [argon2_ctx_eq type hvalid, allocate_ok (scheduled_serves hserves schedule), pure_bind]
  change fill_memory_blocks _ (scheduled sys schedule) ((fill_first_blocks _ _).exec sys.memory).2
    >>= _ = _
  rw [hfill, pure_bind, last_block_alone hchecked type]
  rfl

/-- A checked hash with at most one thread for each lane always gives the same tag, of the length
that was asked for: whatever the memory held and however the threads took turns. It fails only
where memory or a thread is refused, and then says which; otherwise it can always come to its
end. -/
theorem argon2_ctx_determined (type : Argon2Type) (hvalid : validate_inputs context = .ok ())
    (hthreads : context.threads ≤ context.lanes) :
    (argon2_tag context type).length = context.outlen ∧
    (∀ sys r, (argon2_ctx context type sys).run = some r →
      r = .ok (argon2_tag context type) ∨ ∃ e, r = .error e ∧ sys.Fails e) ∧
    ∀ sys : System, sys.Serves → ∃ schedule,
      (argon2_ctx context type (scheduled sys schedule)).run =
        some (.ok (argon2_tag context type)) := by
  refine ⟨argon2_tag_length type hvalid, ?_, ?_⟩
  · intro sys r h
    cases r with
    | ok out => exact .inl (congrArg _ (argon2_ctx_ok hvalid hthreads h))
    | error e => exact .inr ⟨e, rfl, argon2_ctx_blameless type hvalid sys e h⟩
  · intro sys hserves
    obtain ⟨schedule, hctx⟩ := argon2_ctx_completes type hvalid hthreads hserves
    exact ⟨schedule, congrArg ExceptT.run hctx⟩

def password_context : Argon2Context where
  out := some []
  outlen := u32 32
  pwd := some (bytes "password")
  pwdlen := u32 8
  salt := some (bytes "somesaltsomesalt")
  saltlen := u32 16
  secret := none
  secretlen := u32 0
  ad := none
  adlen := u32 0
  t_cost := u32 2
  m_cost := u32 8
  lanes := u32 1
  threads := u32 1
  version := u32 0x13

theorem argon2_ctx_determined_password :
    (argon2_tag password_context .Argon2_i).length = 32 ∧
    (∃ schedule, (argon2_ctx password_context .Argon2_i (willing schedule)).run =
      some (.ok (argon2_tag password_context .Argon2_i))) ∧
    ∀ schedule r, (argon2_ctx password_context .Argon2_i (willing schedule)).run = some r →
      r = .ok (argon2_tag password_context .Argon2_i) := by
  have hdetermined := @argon2_ctx_determined password_context .Argon2_i (by decide) (by decide)
  refine ⟨hdetermined.1, hdetermined.2.2 (willing fun _ _ => []) (willing_serves _), ?_⟩
  intro schedule r h
  refine (hdetermined.2.1 _ r h).resolve_right ?_
  rintro ⟨e, -, hfails⟩
  exact willing_serves schedule e hfails

end Tag

end Argon2Fill
