import Ayahesa.TreeHeap
import Mathlib.Order.Lattice.Nat

/-! # The application on the heap

`application.c` at its pointers: what `application_create` allocates and the configuration adds
is what `application_release` gives back. -/
namespace AppHeap

open CMemory HttpRequest SlotStore TreeStore TreeInvariant AppConfig SeparationTriples TreeHeap
open DecimalText (decimal)

def TREE_CONFIG : ℕ := 0
def TREE_CACHE : ℕ := 1

section Operations

variable (A : Allocator)

def new_branch (root i : ℕ) (flags : UInt8) : Heaped Unit := do
  let r ← load_node root
  let branch ← alloc A (.node cleared)
  let slots ← load_slots r.ptr
  store_slots r.ptr (slots.set i (some branch))
  let b ← load_node branch
  write dangling branch (.node { b with flags := flags, value := .T_NULL, key := none })
  TreeHeap.tree_new_root A branch

def application_create (instance_id : Bytes) : Heaped ℕ := do
  let root ← alloc A (.node cleared)
  let str ← alloc A (.text instance_id)
  let r ← load_node root
  write dangling root (.node { r with value := .T_STRING (some str), flags := 0, key := none })
  TreeHeap.tree_new_root A root
  new_branch A root TREE_CONFIG T_FLAG_READONLY
  new_branch A root TREE_CACHE 0
  pure root

def call_child (root i : ℕ) (call : Call) : Heaped Unit := do
  let r ← load_node root
  let slots ← load_slots r.ptr
  match slots[i]? with
  | none => throw dangling
  | some none => throw (.fault .nullPointer)
  | some (some child) => TreeHeap.step A child call

def set_instance (root : ℕ) (value : Bytes) : Heaped Unit := do
  let r ← load_node root
  match r.value with
  | .T_STRING str => do
    kore_free str
    let copy ← kore_strdup A value
    write dangling root (.node { r with value := .T_STRING (some copy) })
  | _ => throw dangling

/-- The qualified key is put together in a buffer of its own, which is freed behind the put. -/
def put_qualified (root : ℕ) (sect name value : Bytes) : Heaped Unit := do
  let buffer ← alloc A (.text [])
  let key ← checked (compose_key sect name)
  write dangling buffer (.text key)
  call_child A root TREE_CONFIG (.tree_put_str key value)
  kore_free (some buffer)

def load_config_tree (kore_strtonum : Strtonum) (root : ℕ) (sect name value : Bytes)
    (lineno : ℕ) : Heaped ℤ :=
  if sect = bytes "app" ∧ value.length = 0 then
    throw (.abort (bytes "Config item in '[app]' cannot be empty (line:" ++ decimal lineno ++
      bytes ")\n"))
  else if name = bytes "debug" then do
    let debug := if value = bytes "true" ∨ value = bytes "1" then 1 else 0
    call_child A root TREE_CONFIG (.tree_put_int (bytes "debug") debug)
    pure 1
  else if sect = bytes "app" ∧ name = bytes "session" then do
    let time := (kore_strtonum value 10 60 86400).1
    call_child A root TREE_CONFIG (.tree_put_int (bytes "app.session") time)
    pure 1
  else if name = bytes "instance" then do
    set_instance A root value
    pure 1
  else if sect.length ≠ 0 then do
    put_qualified A root sect name value
    pure 1
  else do
    call_child A root TREE_CONFIG (.tree_put_str name value)
    pure 1

/-- The trees, and the root itself. -/
def application_release (root : ℕ) : Heaped Unit := do
  TreeHeap.tree_free DEPTH root
  kore_free (some root)

end Operations

/-! ## Runs -/

inductive Event where
  | load_config_tree (s : Setting)
  | config (call : Call)
  | cache (call : Call)

def apply_event (kore_strtonum : Strtonum) (app : App) : Event → Proc App
  | .load_config_tree s =>
    (AppConfig.load_config_tree kore_strtonum app s.sect s.name s.value s.lineno).map Prod.fst
  | .config call => (TreeStore.step app.config call).map fun tree => { app with config := tree }
  | .cache call => (TreeStore.step app.cache call).map fun tree => { app with cache := tree }

def heap_event (A : Allocator) (kore_strtonum : Strtonum) (root : ℕ) : Event → Heaped Unit
  | .load_config_tree s => do
    let _ ← load_config_tree A kore_strtonum root s.sect s.name s.value s.lineno
    pure ()
  | .config call => call_child A root TREE_CONFIG call
  | .cache call => call_child A root TREE_CACHE call

def apply_events (kore_strtonum : Strtonum) (app : App) (events : List Event) : Proc App :=
  events.foldlM (apply_event kore_strtonum) app

def heap_events (A : Allocator) (kore_strtonum : Strtonum) (root : ℕ) (events : List Event) :
    Heaped Unit :=
  events.forM (heap_event A kore_strtonum root)

def heap_start (A : Allocator) (kore_strtonum : Strtonum) (instance_id : Bytes)
    (events : List Event) : Heaped ℕ := do
  let root ← application_create A instance_id
  heap_events A kore_strtonum root events
  pure root

/-! ## What the blocks of an application hold -/

structure Layout where
  str : ℕ
  ptr : ℕ
  config : ℕ
  cache : ℕ

def Layout.root (l : Layout) : Node := ⟨.T_STRING (some l.str), 0, none, 10, some l.ptr⟩

def Layout.children (l : Layout) : List (Option ℕ) :=
  some l.config :: some l.cache :: List.replicate 8 none

def blocks_at (root : ℕ) (app : App) (l : Layout) : Assertion Chunk :=
  cell root (.node l.root) * (cell l.ptr (.slots l.children) *
    (cell l.str (.text app.value) * (tree_at l.config app.config * tree_at l.cache app.cache)))

def app_at (root : ℕ) (app : App) : Assertion Chunk := any fun l => blocks_at root app l

section Steps

variable {A : Allocator} {root : ℕ} {app : App}

theorem slots_at_replicate {ι : Type} (rep : ℕ → ι → Assertion Chunk) (n : ℕ) :
    slots_at rep (List.replicate n none) (List.replicate n none) = 1 := by
  induction n with
  | zero => rfl
  | succ n ih => exact ih

theorem tree_new_root_makes {a : ℕ} {n : Node} :
    Triple (cell a (.node n)) (TreeHeap.tree_new_root A a) fun _ => any fun p =>
      cell a (.node { n with alloc_cnt := 10, ptr := some p }) *
        cell p (.slots (List.replicate 10 none)) := by
  rw [TreeHeap.tree_new_root, ← mul_one (cell a _)]
  apply bind_load_node
  apply bind_alloc
  intro p
  rw [mul_one, mul_comm]
  refine last_write.weaken (Entails.refl _) fun _ => ?_
  exact entails_any (P := fun p => cell a (Chunk.node { n with alloc_cnt := 10, ptr := some p }) *
    cell p (Chunk.slots (List.replicate 10 none))) p

theorem fresh_at (branch p : ℕ) (flags : UInt8) :
    Entails (cell branch (.node ⟨.T_NULL, flags, none, 10, some p⟩) *
      cell p (.slots (List.replicate 10 none))) (tree_at branch (fresh flags)) := by
  refine Entails.trans (entails_of_eq ?_) (entails_tree (n := ⟨.T_NULL, flags, none, 10, some p⟩)
    (fresh flags) (List.replicate 10 none) rfl rfl rfl)
  change _ = _ * (1 * 1 * slots_at item_at (List.replicate 10 none) (List.replicate 10 none))
  rw [slots_at_replicate, mul_one, mul_one, mul_one]

theorem new_branch_makes {r : Node} {p i : ℕ} {slots : List (Option ℕ)} (flags : UInt8)
    (hptr : r.ptr = some p) :
    Triple (cell root (.node r) * cell p (.slots slots)) (new_branch A root i flags)
      fun _ => any fun branch => cell root (.node r) *
        cell p (.slots (slots.set i (some branch))) * tree_at branch (fresh flags) := by
  rw [new_branch]
  apply bind_load_node
  apply bind_alloc
  intro branch
  rw [hptr, ← mul_assoc, mul_comm]
  apply bind_load_slots
  apply bind_write
  refine Triple.of_eq (P := cell branch (.node cleared) *
    (cell root (.node r) * cell p (.slots (slots.set i (some branch))))) (by ac_rfl) ?_
  apply bind_load_node
  apply bind_write
  refine (tree_new_root_makes.frame _).weaken (Entails.refl _) fun _ => ?_
  rw [any_mul]
  rintro m ⟨p', hm⟩
  exact ⟨branch, entails_of_eq (mul_comm _ _) m
    (entails_mul (fresh_at branch p' flags) (Entails.refl _) m hm)⟩

theorem application_create_makes (instance_id : Bytes) :
    Triple 1 (application_create A instance_id)
      fun root => app_at root (AppConfig.application_create instance_id) := by
  rw [application_create]
  apply bind_alloc
  intro root
  apply bind_alloc
  intro str
  rw [mul_one, mul_comm]
  apply bind_load_node
  apply bind_write
  apply bind_frame tree_new_root_makes
  intro _
  rw [any_mul]
  apply triple_any
  intro p
  apply bind_frame (new_branch_makes T_FLAG_READONLY rfl)
  intro _
  rw [any_mul]
  apply triple_any
  intro config
  rw [mul_assoc]
  apply bind_frame (new_branch_makes 0 rfl)
  intro _
  rw [any_mul]
  apply triple_any
  intro cache
  apply triple_pure
  intro m hm
  have hblocks : blocks_at root (AppConfig.application_create instance_id)
      ⟨str, p, config, cache⟩ = cell root (.node ⟨.T_STRING (some str), 0, none, 10, some p⟩) *
        (cell p (.slots (((List.replicate 10 none).set TREE_CONFIG (some config)).set TREE_CACHE
          (some cache))) * (cell str (.text instance_id) *
            (tree_at config (fresh T_FLAG_READONLY) * tree_at cache (fresh 0)))) := rfl
  refine ⟨⟨str, p, config, cache⟩, entails_of_eq ?_ m hm⟩
  rw [hblocks]
  dsimp only
  ac_rfl

theorem call_child_steps {l : Layout} {i child : ℕ} {call : Call} {tree tree' : Tree}
    (hat : l.children[i]? = some (some child))
    (hstep : Triple (tree_at child tree) (TreeHeap.step A child call) fun _ => tree_at child tree')
    (F : Assertion Chunk) :
    Triple (cell root (.node l.root) * (cell l.ptr (.slots l.children) * (tree_at child tree * F)))
      (call_child A root i call) fun _ =>
        cell root (.node l.root) *
          (cell l.ptr (.slots l.children) * (tree_at child tree' * F)) := by
  rw [call_child]
  apply bind_load_node
  rw [mul_left_comm]
  apply bind_load_slots
  rw [hat]
  refine (hstep.frame (cell root (.node l.root) * (cell l.ptr (.slots l.children) * F))).weaken
    (entails_of_eq ?_) fun _ => entails_of_eq ?_
  · ac_rfl
  · ac_rfl

theorem config_keeps {call : Call} {tree : Tree} (hs : Sound app.config)
    (h : TreeStore.step app.config call = .ok tree) :
    Triple (app_at root app) (call_child A root TREE_CONFIG call)
      fun _ => app_at root { app with config := tree } := by
  apply triple_any
  intro l
  have hstep := step_keeps (A := A) hs h l.config
  refine (call_child_steps (l := l) (i := TREE_CONFIG) rfl hstep
    (cell l.str (.text app.value) * tree_at l.cache app.cache)).weaken
    (entails_of_eq ?_) fun _ => ?_
  · rw [blocks_at]
    ac_rfl
  · intro m hm
    refine ⟨l, entails_of_eq ?_ m hm⟩
    rw [blocks_at]
    ac_rfl

theorem cache_keeps {call : Call} {tree : Tree} (hs : Sound app.cache)
    (h : TreeStore.step app.cache call = .ok tree) :
    Triple (app_at root app) (call_child A root TREE_CACHE call)
      fun _ => app_at root { app with cache := tree } := by
  apply triple_any
  intro l
  have hstep := step_keeps (A := A) hs h l.cache
  refine (call_child_steps (l := l) (i := TREE_CACHE) rfl hstep
    (cell l.str (.text app.value) * tree_at l.config app.config)).weaken
    (entails_of_eq ?_) fun _ => ?_
  · rw [blocks_at]
    ac_rfl
  · intro m hm
    refine ⟨l, entails_of_eq ?_ m hm⟩
    rw [blocks_at]
    ac_rfl

theorem set_instance_keeps (value : Bytes) :
    Triple (app_at root app) (set_instance A root value)
      fun _ => app_at root { app with value := value } := by
  apply triple_any
  intro l
  rw [set_instance, blocks_at]
  apply bind_load_node
  refine Triple.of_eq (P := cell l.str (.text app.value) * (cell root (.node l.root) *
    (cell l.ptr (.slots l.children) * (tree_at l.config app.config * tree_at l.cache app.cache))))
    (by ac_rfl) ?_
  apply bind_free
  apply bind_alloc
  intro copy
  rw [mul_left_comm]
  refine last_write.weaken (Entails.refl _) fun _ => ?_
  intro m hm
  refine ⟨{ l with str := copy }, entails_of_eq ?_ m hm⟩
  rw [blocks_at]
  exact congrArg (_ * ·) (mul_left_comm _ _ _)

end Steps

/-! ## Runs keep what they hold, and a release leaves nothing -/

section Runs

variable {A : Allocator} {kore_strtonum : Strtonum} {root : ℕ} {app app' : App}

def Healthy (app : App) : Prop := Sound app.config ∧ Sound app.cache

/-- The command does to the blocks what is done to the values. -/
structure Keeps (app : App) (command : ℕ → Heaped Unit) (app' : App) : Prop where
  healthy : Healthy app'
  blocks : ∀ root, Triple (app_at root app) (command root) fun _ => app_at root app'

theorem config_event (call : Call) {tree : Tree} (hs : Healthy app)
    (h : TreeStore.step app.config call = .ok tree) :
    Keeps app (fun root => call_child A root TREE_CONFIG call) { app with config := tree } where
  healthy := ⟨(step_sound hs.1 h).1, hs.2⟩
  blocks _ := config_keeps hs.1 h

theorem cache_event (call : Call) {tree : Tree} (hs : Healthy app)
    (h : TreeStore.step app.cache call = .ok tree) :
    Keeps app (fun root => call_child A root TREE_CACHE call) { app with cache := tree } where
  healthy := ⟨hs.1, (step_sound hs.2 h).1⟩
  blocks _ := cache_keeps hs.2 h

theorem put_qualified_keeps {sect name value key : Bytes} {tree : Tree} (hs : Healthy app)
    (hkey : compose_key sect name = .ok key)
    (h : TreeStore.step app.config (.tree_put_str key value) = .ok tree) :
    Keeps app (fun root => put_qualified A root sect name value) { app with config := tree } where
  healthy := ⟨(step_sound hs.1 h).1, hs.2⟩
  blocks root := by
    rw [put_qualified]
    apply bind_alloc
    intro buffer
    rw [hkey, checked, pure_bind]
    apply bind_write
    rw [mul_comm]
    apply bind_frame (config_keeps hs.1 h)
    intro _
    rw [mul_comm]
    exact (triple_free.frame _).weaken (Entails.refl _) fun _ => entails_of_eq (one_mul _)

/-- The answer of the handler is not looked at. -/
theorem Keeps.answer {command : ℕ → Heaped Unit} (h : Keeps app command app') (r : ℤ) :
    Keeps app (fun root => do
      let _ ← (do command root; pure r : Heaped ℤ)
      pure ()) app' where
  healthy := h.healthy
  blocks root := by
    have hfirst : Triple (app_at root app) (do command root; pure r : Heaped ℤ)
        fun _ => app_at root app' := (h.blocks root).bind fun _ => triple_pure (Entails.refl _)
    exact hfirst.bind fun _ => triple_pure (Entails.refl _)

theorem map_inv {α β : Type} {x : Proc α} {f : α → β} {b : β} (h : x.map f = .ok b) :
    ∃ a, x = .ok a ∧ b = f a := by
  cases x with
  | error e => cases h
  | ok a => exact ⟨a, rfl, (Except.ok.inj h).symm⟩

theorem put_child_inv {x : Proc Tree} {r : ℤ}
    (h : (x.map (fun config => { app with config := config }) >>= fun app => pure (app, 1)) =
      (.ok (app', r) : Proc (App × ℤ))) :
    ∃ tree, x = .ok tree ∧ app' = { app with config := tree } := by
  cases x with
  | error e => cases h
  | ok tree =>
    obtain ⟨rfl, -⟩ := Prod.mk.inj (Except.ok.inj h)
    exact ⟨tree, rfl, rfl⟩

theorem load_event {s : Setting} {r : ℤ} (hs : Healthy app)
    (h : AppConfig.load_config_tree kore_strtonum app s.sect s.name s.value s.lineno =
      .ok (app', r)) :
    Keeps app (fun root => heap_event A kore_strtonum root (.load_config_tree s)) app' := by
  simp only [heap_event, load_config_tree]
  rw [AppConfig.load_config_tree] at h
  split at h
  · cases h
  · next hvalue =>
    simp only [if_neg hvalue]
    split at h
    · next hdebug =>
      simp only [if_pos hdebug]
      obtain ⟨tree, hput, rfl⟩ := put_child_inv h
      exact (config_event (.tree_put_int _ _) hs hput).answer 1
    · next hdebug =>
      simp only [if_neg hdebug]
      split at h
      · next hsession =>
        simp only [if_pos hsession]
        obtain ⟨tree, hput, rfl⟩ := put_child_inv h
        exact (config_event (.tree_put_int _ _) hs hput).answer 1
      · next hsession =>
        simp only [if_neg hsession]
        split at h
        · next hinstance =>
          simp only [if_pos hinstance]
          obtain ⟨rfl, -⟩ := Prod.mk.inj (Except.ok.inj h)
          have hset : Keeps app (fun root => set_instance A root s.value)
              { app with value := s.value } := ⟨hs, fun root => set_instance_keeps s.value⟩
          exact hset.answer 1
        · next hinstance =>
          simp only [if_neg hinstance]
          split at h
          · next hsect =>
            simp only [if_pos hsect]
            cases hkey : compose_key s.sect s.name with
            | error e =>
              rw [hkey] at h
              cases h
            | ok key =>
              rw [hkey] at h
              obtain ⟨tree, hput, rfl⟩ := put_child_inv h
              exact (put_qualified_keeps hs hkey hput).answer 1
          · next hsect =>
            simp only [if_neg hsect]
            obtain ⟨tree, hput, rfl⟩ := put_child_inv h
            exact (config_event (.tree_put_str _ _) hs hput).answer 1

theorem event_keeps {e : Event} (hs : Healthy app)
    (h : apply_event kore_strtonum app e = .ok app') :
    Keeps app (fun root => heap_event A kore_strtonum root e) app' := by
  cases e with
  | load_config_tree s =>
    obtain ⟨answer, hload, rfl⟩ := map_inv h
    exact load_event hs hload
  | config call =>
    obtain ⟨tree, hstep, rfl⟩ := map_inv h
    exact config_event call hs hstep
  | cache call =>
    obtain ⟨tree, hstep, rfl⟩ := map_inv h
    exact cache_event call hs hstep

/-- A run of events keeps the blocks of the application in step with its values. -/
theorem events_keep {events : List Event} (hs : Healthy app)
    (h : apply_events kore_strtonum app events = .ok app') :
    Keeps app (fun root => heap_events A kore_strtonum root events) app' := by
  induction events generalizing app with
  | nil =>
    obtain rfl := Except.ok.inj h
    exact ⟨hs, fun root => triple_pure (Entails.refl _)⟩
  | cons e events ih =>
    rw [apply_events, List.foldlM_cons] at h
    cases hevent : apply_event kore_strtonum app e with
    | error _ =>
      rw [hevent] at h
      cases h
    | ok app₁ =>
      rw [hevent] at h
      have hfirst := event_keeps (A := A) hs hevent
      have hrest := ih hfirst.healthy h
      exact ⟨hrest.healthy, fun root => (hfirst.blocks root).bind fun _ => hrest.blocks root⟩

theorem app_at_node (root : ℕ) (app : App) : Entails (app_at root app)
    (node_at tree_at root ⟨0, none, .T_STRING app.value,
      some (some app.config :: some app.cache :: List.replicate 8 none)⟩) := by
  rintro m ⟨l, hm⟩
  have hnode : Entails (cell root (.node l.root) * cell l.ptr (.slots l.children) *
      (text_at l.root.key none * value_at l.root.value (.T_STRING app.value) *
        slots_at tree_at l.children
          (some app.config :: some app.cache :: List.replicate 8 none)))
      (node_at tree_at root ⟨0, none, .T_STRING app.value,
        some (some app.config :: some app.cache :: List.replicate 8 none)⟩) :=
    entails_node (n := l.root) (x := ⟨0, none, .T_STRING app.value,
      some (some app.config :: some app.cache :: List.replicate 8 none)⟩) rfl rfl rfl rfl
  refine hnode m (entails_of_eq ?_ m hm)
  change _ = _ * _ * (1 * cell l.str (.text app.value) * (tree_at l.config app.config *
    (tree_at l.cache app.cache * slots_at tree_at (List.replicate 8 none) (List.replicate 8 none))))
  rw [slots_at_replicate, blocks_at, one_mul, mul_one]
  ac_rfl

theorem application_release_frees (root : ℕ) (app : App) :
    Triple (app_at root app) (application_release root) fun _ => 1 := by
  rw [application_release]
  refine Triple.bind ((tree_free_node (tree_free_tree 0) root _).weaken (app_at_node root app)
    fun _ => Entails.refl _) fun _ => ?_
  apply triple_any
  intro n
  exact triple_free

/-- From its start on, in every run, an application holds exactly the blocks of its trees, at
whichever addresses they are put. Its release gives back each of them once, and the heap is what
it was before. -/
theorem application_heap (A : Allocator) {instance_id : Bytes} {events : List Event}
    (hrun : apply_events kore_strtonum (AppConfig.application_create instance_id) events = .ok app)
    (h : Heap Chunk) (past : List HeapCall) :
    ∃ root part later, heap_start A kore_strtonum instance_id events ⟨h, past⟩ =
        .ok (root, ⟨part ∪ h, later⟩) ∧
      part.Disjoint h ∧ app_at root app part ∧
      ∃ last, application_release root ⟨part ∪ h, later⟩ = .ok ((), ⟨h, last⟩) := by
  have hhealthy : Healthy (AppConfig.application_create instance_id) :=
    ⟨fresh_sound T_FLAG_READONLY, fresh_sound 0⟩
  have hevents := events_keep (A := A) hhealthy hrun
  have hstart : Triple 1 (heap_start A kore_strtonum instance_id events)
      fun root => app_at root app := by
    apply (application_create_makes instance_id).bind
    intro root
    apply (hevents.blocks root).bind
    intro _
    exact triple_pure (Entails.refl _)
  obtain ⟨root, part, later, hrun', hdisjoint, happ⟩ := hstart.run h past
  refine ⟨root, part, later, hrun', hdisjoint, happ, ?_⟩
  obtain ⟨_, _, last, hrelease, -, rfl⟩ :=
    application_release_frees root app part h later hdisjoint happ
  rw [Finmap.empty_union] at hrelease
  exact ⟨last, hrelease⟩

/-- New blocks lie behind all that are in use, and further off with every call. -/
def bump : Allocator where
  pick past used := used.sup id + past.length + 1
  fresh past used hmem := by
    have hle := Finset.le_sup (f := id) hmem
    simp only [id] at hle
    omega

def first_events : List Event :=
  [.load_config_tree ⟨bytes "app", bytes "name", bytes "Ayahesa", 1⟩,
    .load_config_tree ⟨[], bytes "instance", bytes "first", 2⟩,
    .cache (.tree_put_str (bytes "user") (bytes "alice")),
    .cache (.tree_put_str (bytes "user") (bytes "bob")), .cache (.tree_remove (bytes "user"))]

theorem application_heap_first : ∃ root part later last,
    heap_start bump (fun _ _ _ _ => (0, true)) (bytes "ab-CDEFGH") first_events ⟨∅, []⟩ =
      .ok (root, ⟨part ∪ ∅, later⟩) ∧
    application_release root ⟨part ∪ ∅, later⟩ = .ok ((), ⟨∅, last⟩) := by
  have hok : (apply_events (fun _ _ _ _ => (0, true))
      (AppConfig.application_create (bytes "ab-CDEFGH")) first_events).isOk = true := by
    decide +kernel
  obtain ⟨app, hrun⟩ : ∃ app, apply_events (fun _ _ _ _ => (0, true))
      (AppConfig.application_create (bytes "ab-CDEFGH")) first_events = .ok app := by
    cases hevents : apply_events (fun _ _ _ _ => (0, true))
        (AppConfig.application_create (bytes "ab-CDEFGH")) first_events with
    | ok app => exact ⟨app, rfl⟩
    | error e =>
      rw [hevents] at hok
      cases hok
  obtain ⟨root, part, later, hstart, -, -, last, hrelease⟩ := application_heap bump hrun ∅ []
  exact ⟨root, part, later, last, hstart, hrelease⟩

end Runs

end AppHeap
