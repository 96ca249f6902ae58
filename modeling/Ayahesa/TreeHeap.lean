import Ayahesa.AppConfig
import Ayahesa.SeparationTriples

/-! # The blocks of the application tree

`tree.c` at its pointers. A node, the array of its children and each of its strings is a block of
its own, which `tree_free` gives back. -/
namespace TreeHeap

open CMemory HttpRequest SlotStore TreeStore TreeInvariant AppConfig SeparationTriples

inductive NodeValue where
  | T_NULL
  | T_INT (i : ℤ)
  | T_FLOAT (f : UInt32)
  | T_STRING (str : Option ℕ)
  | T_POINTER (ptr : UInt64)

/-- `struct app_tree`; `none` is NULL. -/
structure Node where
  value : NodeValue
  flags : UInt8
  key : Option ℕ
  alloc_cnt : ℕ
  ptr : Option ℕ

inductive Chunk where
  | node (n : Node)
  | slots (ptr : List (Option ℕ))
  | text (s : Bytes)

abbrev Heaped (α : Type) := Command Halt Chunk α

/-- The use of a block that is not there, or not any more. -/
def dangling : Halt := .fault .outOfBounds

def load_node (node : ℕ) : Heaped Node := do
  match ← read dangling node with
  | .node n => pure n
  | _ => throw dangling

def load_slots (ptr : Option ℕ) : Heaped (List (Option ℕ)) :=
  match ptr with
  | none => throw (.fault .nullPointer)
  | some ptr => do
    match ← read dangling ptr with
    | .slots slots => pure slots
    | _ => throw dangling

def load_text (str : Option ℕ) : Heaped Bytes :=
  match str with
  | none => throw (.fault .nullPointer)
  | some str => do
    match ← read dangling str with
    | .text s => pure s
    | _ => throw dangling

def store_slots (ptr : Option ℕ) (slots : List (Option ℕ)) : Heaped Unit :=
  match ptr with
  | none => throw (.fault .nullPointer)
  | some ptr => write dangling ptr (.slots slots)

/-- NULL is left alone. -/
def kore_free : Option ℕ → Heaped Unit
  | none => pure ()
  | some a => free dangling a

/-- `calloc` -/
def cleared : Node := ⟨.T_NULL, 0, none, 0, none⟩

/-! ## Freeing -/

def clear_slot (hit : ℕ → Heaped Bool) (release : ℕ → Heaped Unit) (ptr : Option ℕ) (i child : ℕ) :
    Heaped Unit := do
  let found ← hit child
  if found then do
    release child
    kore_free (some child)
    let slots ← load_slots ptr
    store_slots ptr (slots.set i none)
  else pure ()

/-- The loop over the children, which `tree_free` and `tree_remove` share. -/
def clear_slots (hit : ℕ → Heaped Bool) (release : ℕ → Heaped Unit) (ptr : Option ℕ) :
    ℕ → ℕ → Heaped Unit
  | 0, _ => pure ()
  | n + 1, i => do
    let slots ← load_slots ptr
    match slots[i]? with
    | none => throw dangling
    | some none => clear_slots hit release ptr n (i + 1)
    | some (some child) => do
      clear_slot hit release ptr i child
      clear_slots hit release ptr n (i + 1)

def free_key (node : ℕ) : Heaped Unit := do
  let n ← load_node node
  kore_free n.key
  write dangling node (.node { n with key := none })

def free_value (node : ℕ) : Heaped Unit := do
  let n ← load_node node
  match n.value with
  | .T_STRING str => do
    kore_free str
    write dangling node (.node { n with value := .T_STRING none })
  | .T_POINTER _ => write dangling node (.node { n with value := .T_POINTER 0 })
  | _ => pure ()

def free_children (release : ℕ → Heaped Unit) (node : ℕ) : Heaped Unit := do
  let n ← load_node node
  match n.ptr with
  | none => pure ()
  | some ptr => do
    clear_slots (fun _ => pure true) release (some ptr) n.alloc_cnt 0
    kore_free (some ptr)
    write dangling node (.node { n with ptr := none })

/-- The fuel is the depth of the tree. -/
def tree_free : ℕ → ℕ → Heaped Unit
  | 0, _ => throw dangling
  | depth + 1, node => do
    free_key node
    free_value node
    free_children (tree_free depth) node

/-! ## The operations -/

section Operations

variable (A : Allocator)

def kore_strdup (s : Bytes) : Heaped ℕ := alloc A (.text s)

def tree_new_root (node : ℕ) : Heaped Unit := do
  let n ← load_node node
  let ptr ← alloc A (.slots (List.replicate 10 none))
  write dangling node (.node { n with alloc_cnt := 10, ptr := some ptr })

def find_null : ℕ → List (Option ℕ) → C (Option ℕ)
  | 0, _ => .ok none
  | _ + 1, [] => .error .outOfBounds
  | n + 1, child :: rest =>
    if child.isNone then .ok (some 0) else (find_null n rest).map (Option.map (· + 1))

/-- A step that does not touch the heap. -/
def checked {α : Type} : C α → Heaped α
  | .ok a => pure a
  | .error e => throw (.fault e)

def tree_get_new_index (node : ℕ) : Heaped ℤ := do
  let n ← load_node node
  if n.alloc_cnt = 0 then pure ENOROOT
  else do
    let slots ← load_slots n.ptr
    let found ← checked (find_null n.alloc_cnt slots)
    pure (found.elim EISFULL int_of)

/-- The array moves to a new block, or grows where it is. -/
def tree_expand (node : ℕ) : Heaped ℤ := do
  let n ← load_node node
  let alloc_cnt := (n.alloc_cnt + 10) % 2 ^ 32
  let slots ← load_slots n.ptr
  kore_free n.ptr
  let ptr ← alloc A (.slots (slots.take alloc_cnt ++
    List.replicate (alloc_cnt - n.alloc_cnt) none))
  write dangling node (.node { n with alloc_cnt := alloc_cnt, ptr := some ptr })
  pure (int_of n.alloc_cnt)

def place_item (node : ℕ) (idx : ℤ) : Heaped ℕ := do
  let n ← load_node node
  let item ← alloc A (.node cleared)
  let slots ← load_slots n.ptr
  if 0 ≤ idx ∧ idx < slots.length then do
    store_slots n.ptr (slots.set idx.toNat (some item))
    pure item
  else throw dangling

def tree_new_item (node : ℕ) : Heaped ℕ := do
  let idx ← tree_get_new_index node
  if idx = ENOROOT then throw (.abort [])
  else if idx = EISFULL then do
    let idx ← tree_expand A node
    place_item A node idx
  else place_item A node idx

/-- What the four puts share: the key is copied, and the value is made. -/
def put_item (node : ℕ) (key : Bytes) (make : Heaped NodeValue) : Heaped Unit := do
  let item ← tree_new_item A node
  let copy ← kore_strdup A key
  let value ← make
  let n ← load_node item
  write dangling item (.node { n with key := some copy, value := value })

def tree_put_int (node : ℕ) (key : Bytes) (value : ℤ) : Heaped Unit :=
  put_item A node key (pure (.T_INT value))

def tree_put_float (node : ℕ) (key : Bytes) (value : UInt32) : Heaped Unit :=
  put_item A node key (pure (.T_FLOAT value))

def tree_put_str (node : ℕ) (key value : Bytes) : Heaped Unit :=
  put_item A node key (do
    let str ← kore_strdup A value
    pure (.T_STRING (some str)))

def tree_put_ptr (node : ℕ) (key : Bytes) (value : UInt64) : Heaped Unit :=
  put_item A node key (pure (.T_POINTER value))

/-- `strcmp` -/
def has_key (key : Bytes) (child : ℕ) : Heaped Bool := do
  let n ← load_node child
  let s ← load_text n.key
  pure (s = key)

/-- How deep the trees of the program are. -/
def DEPTH : ℕ := 3

def tree_remove (node : ℕ) (key : Bytes) : Heaped Unit := do
  let n ← load_node node
  if n.flags &&& T_FLAG_READONLY ≠ 0 then pure ()
  else clear_slots (has_key key) (tree_free DEPTH) n.ptr n.alloc_cnt 0

def step (node : ℕ) : Call → Heaped Unit
  | .tree_put_int key value => tree_put_int A node key value
  | .tree_put_float key value => tree_put_float A node key value
  | .tree_put_str key value => tree_put_str A node key value
  | .tree_put_ptr key value => tree_put_ptr A node key value
  | .tree_remove key => tree_remove node key

end Operations


/-! ## What the blocks hold -/

section Assertions

variable {ι : Type}

def text_at : Option ℕ → Option Bytes → Assertion Chunk
  | none, none => 1
  | some a, some s => cell a (.text s)
  | _, _ => fact False

def value_at : NodeValue → Value → Assertion Chunk
  | .T_NULL, .T_NULL => 1
  | .T_INT i, .T_INT j => fact (i = j)
  | .T_FLOAT f, .T_FLOAT g => fact (f = g)
  | .T_STRING str, .T_STRING s => text_at str (some s)
  | .T_POINTER p, .T_POINTER q => fact (p = q)
  | _, _ => fact False

def slots_at (rep : ℕ → ι → Assertion Chunk) : List (Option ℕ) → List (Option ι) → Assertion Chunk
  | [], [] => 1
  | none :: ps, none :: xs => slots_at rep ps xs
  | some a :: ps, some x :: xs => rep a x * slots_at rep ps xs
  | _, _ => fact False

def children_at (rep : ℕ → ι → Assertion Chunk) (n : Node) :
    Option (List (Option ι)) → Assertion Chunk
  | none => fact (n.ptr = none)
  | some xs => any fun p => any fun ps => fact (n.ptr = some p ∧ n.alloc_cnt = xs.length) *
      (cell p (.slots ps) * slots_at rep ps xs)

structure Shape (ι : Type) where
  flags : UInt8
  key : Option Bytes
  value : Value
  slots : Option (List (Option ι))

def node_at (rep : ℕ → ι → Assertion Chunk) (a : ℕ) (x : Shape ι) : Assertion Chunk :=
  any fun n : Node => fact (n.flags = x.flags) * (cell a (.node n) *
    (text_at n.key x.key * (value_at n.value x.value * children_at rep n x.slots)))

def item_at (a : ℕ) (item : Item) : Assertion Chunk :=
  node_at (fun _ (_ : Empty) => 1) a ⟨0, some item.key, item.value, none⟩

def tree_at (a : ℕ) (tree : Tree) : Assertion Chunk :=
  node_at item_at a ⟨tree.flags, none, .T_NULL, some tree.ptr⟩

/-- A block of a node, whatever is left in it. -/
def some_node (a : ℕ) : Assertion Chunk := any fun n : Node => cell a (.node n)

theorem entails_some_node (a : ℕ) (n : Node) : Entails (cell a (.node n)) (some_node a) :=
  entails_any (P := fun n : Node => cell a (Chunk.node n)) n

end Assertions

/-! ## One access -/

section Access

variable {α : Type} {F : Assertion Chunk} {R : α → Assertion Chunk}

theorem bind_load_node {a : ℕ} {n : Node} {f : Node → Heaped α}
    (hf : Triple (cell a (.node n) * F) (f n) R) :
    Triple (cell a (.node n) * F) (load_node a >>= f) R := by
  rw [load_node, bind_assoc]
  apply bind_read
  simpa only [pure_bind] using hf

theorem bind_load_slots {p : ℕ} {slots : List (Option ℕ)} {f : List (Option ℕ) → Heaped α}
    (hf : Triple (cell p (.slots slots) * F) (f slots) R) :
    Triple (cell p (.slots slots) * F) (load_slots (some p) >>= f) R := by
  rw [load_slots, bind_assoc]
  apply bind_read
  simpa only [pure_bind] using hf

theorem bind_load_text {a : ℕ} {s : Bytes} {f : Bytes → Heaped α}
    (hf : Triple (cell a (.text s) * F) (f s) R) :
    Triple (cell a (.text s) * F) (load_text (some a) >>= f) R := by
  rw [load_text, bind_assoc]
  apply bind_read
  simpa only [pure_bind] using hf

theorem last_write {a : ℕ} {b b' : Chunk} :
    Triple (cell a b * F) (write dangling a b') fun _ => cell a b' * F :=
  triple_write.frame F

end Access

/-! ## Freeing gives back every block -/

section Freeing

variable {ι : Type} {rep : ℕ → ι → Assertion Chunk}

theorem free_key_frees {a : ℕ} {n : Node} {key : Option Bytes} :
    Triple (cell a (.node n) * text_at n.key key) (free_key a)
      fun _ => cell a (.node { n with key := none }) := by
  rw [free_key]
  apply bind_load_node
  rcases n with ⟨value, flags, _ | k, alloc_cnt, ptr⟩ <;> rcases key with _ | s
  · change Triple (_ * 1) (pure () >>= _) _
    rw [mul_one, pure_bind]
    exact triple_write
  · exact triple_impossible
  · exact triple_impossible
  · change Triple (_ * cell k (Chunk.text s)) _ _
    rw [mul_comm]
    apply bind_free
    exact triple_write

theorem free_value_frees {a : ℕ} {n : Node} {value : Value} :
    Triple (cell a (.node n) * value_at n.value value) (free_value a)
      fun _ => any fun v => cell a (.node { n with value := v }) := by
  rw [free_value]
  apply bind_load_node
  rcases n with ⟨v, flags, key, alloc_cnt, ptr⟩
  have hsame : ∀ v, Entails (cell a (Chunk.node ⟨v, flags, key, alloc_cnt, ptr⟩))
      (any fun w => cell a (Chunk.node ⟨w, flags, key, alloc_cnt, ptr⟩)) := fun v =>
    entails_any (P := fun w => cell a (Chunk.node ⟨w, flags, key, alloc_cnt, ptr⟩)) v
  cases v <;> cases value <;> try exact triple_impossible
  case T_NULL.T_NULL =>
    change Triple (_ * 1) (pure ()) _
    rw [mul_one]
    exact triple_pure (hsame _)
  case T_INT.T_INT i j =>
    change Triple (_ * fact (i = j)) (pure ()) _
    rw [mul_comm]
    exact triple_fact fun _ => triple_pure (hsame _)
  case T_FLOAT.T_FLOAT f g =>
    change Triple (_ * fact (f = g)) (pure ()) _
    rw [mul_comm]
    exact triple_fact fun _ => triple_pure (hsame _)
  case T_STRING.T_STRING str s =>
    cases str with
    | none => exact triple_impossible
    | some k =>
      change Triple (_ * cell k (Chunk.text s)) _ _
      rw [mul_comm]
      apply bind_free
      exact triple_write.weaken (Entails.refl _) fun _ => hsame _
  case T_POINTER.T_POINTER p q =>
    change Triple (_ * fact (p = q)) _ _
    rw [mul_comm]
    exact triple_fact fun _ => triple_write.weaken (Entails.refl _) fun _ => hsame _

theorem clear_slot_clears {hit : ℕ → Heaped Bool} {release : ℕ → Heaped Unit} {test : ι → Bool}
    (hhit : ∀ a x, Triple (rep a x) (hit a) fun found => fact (found = test x) * rep a x)
    (hrelease : ∀ a x, test x → Triple (rep a x) (release a) fun _ => some_node a) {p i child : ℕ}
    {slots : List (Option ℕ)} {x : ι} :
    Triple (rep child x * cell p (.slots slots)) (clear_slot hit release (some p) i child)
      fun _ => if test x then cell p (.slots (slots.set i none))
        else rep child x * cell p (.slots slots) := by
  apply bind_frame (hhit child x)
  intro found
  rw [mul_assoc]
  apply triple_fact
  rintro rfl
  cases htest : test x with
  | false => exact triple_pure (Entails.refl _)
  | true =>
    apply bind_frame (hrelease child x htest)
    intro _
    rw [some_node, any_mul]
    apply triple_any
    intro n
    apply bind_free
    rw [← mul_one (cell p _)]
    apply bind_load_slots
    rw [mul_one]
    exact triple_write

theorem clear_slots_clears {hit : ℕ → Heaped Bool} {release : ℕ → Heaped Unit} {test : ι → Bool}
    (hhit : ∀ a x, Triple (rep a x) (hit a) fun found => fact (found = test x) * rep a x)
    (hrelease : ∀ a x, test x → Triple (rep a x) (release a) fun _ => some_node a) {p : ℕ}
    (ps : List (Option ℕ)) (xs : List (Option ι)) (qs : List (Option ℕ)) :
    Triple (cell p (.slots (qs ++ ps)) * slots_at rep ps xs)
      (clear_slots hit release (some p) xs.length qs.length)
      fun _ => any fun ps' => cell p (.slots (qs ++ ps')) * slots_at rep ps' (clear test xs) := by
  induction ps generalizing xs qs with
  | nil =>
    cases xs with
    | nil => exact triple_pure (entails_any (P := fun ps' => cell p (.slots (qs ++ ps')) *
        slots_at rep ps' (clear test [])) [])
    | cons x xs => exact triple_impossible
  | cons q ps ih =>
    have hat : (qs ++ q :: ps)[qs.length]? = some q := by
      rw [List.getElem?_append_right (Nat.le_refl _), Nat.sub_self]
      rfl
    have hnext : ∀ (r : Option ℕ) (xs : List (Option ι)),
        Triple (cell p (.slots (qs ++ r :: ps)) * slots_at rep ps xs)
          (clear_slots hit release (some p) xs.length (qs.length + 1))
          fun _ => any fun ps' => cell p (.slots (qs ++ r :: ps')) *
            slots_at rep ps' (clear test xs) := by
      intro r xs
      have h := ih xs (qs ++ [r])
      rw [List.length_append, List.length_singleton] at h
      simpa only [List.append_assoc, List.singleton_append] using h
    cases xs with
    | nil => cases q <;> exact triple_impossible
    | cons x xs =>
      rw [List.length_cons, clear_slots]
      apply bind_load_slots
      rw [hat]
      rcases q with _ | child <;> rcases x with _ | x
      · refine (hnext none xs).weaken (Entails.refl _) fun _ => ?_
        rintro m ⟨ps', hm⟩
        exact ⟨none :: ps', hm⟩
      · exact triple_impossible
      · exact triple_impossible
      · change Triple (_ * (rep child x * slots_at rep ps xs)) _ _
        rw [← mul_assoc, mul_comm (cell p _)]
        apply bind_frame (clear_slot_clears hhit hrelease)
        intro _
        have hset : (qs ++ some child :: ps).set qs.length none = qs ++ none :: ps := by
          rw [List.set_append_right _ _ (Nat.le_refl _), Nat.sub_self]
          rfl
        have hclear : clear test (some x :: xs) =
            (if test x then none else some x) :: clear test xs := by
          cases htest : test x <;> simp [clear, htest]
        rw [hset, hclear]
        cases test x with
        | false =>
          have hkeep := (hnext (some child) xs).frame (rep child x)
          refine hkeep.weaken ?_ fun _ => ?_
          · rw [if_neg Bool.false_ne_true]
            exact entails_of_eq (by ac_rfl)
          · rw [any_mul]
            rintro m ⟨ps', hm⟩
            refine ⟨some child :: ps', ?_⟩
            rw [mul_assoc, mul_comm _ (rep child x)] at hm
            exact hm
        | true =>
          refine (hnext none xs).weaken (Entails.refl _) fun _ => ?_
          rintro m ⟨ps', hm⟩
          exact ⟨none :: ps', hm⟩

theorem clear_all (xs : List (Option ι)) :
    clear (fun _ => true) xs = List.replicate xs.length none := by
  induction xs with
  | nil => rfl
  | cons x xs ih =>
    rw [List.length_cons, List.replicate_succ, ← ih]
    cases x <;> rfl

theorem slots_at_cleared (ps : List (Option ℕ)) (n : ℕ) :
    Entails (slots_at rep ps (List.replicate n none)) 1 := by
  induction ps generalizing n with
  | nil =>
    cases n with
    | zero => exact Entails.refl _
    | succ n => exact fun _ hm => hm.1.elim
  | cons p ps ih =>
    cases n with
    | zero => cases p <;> exact fun _ hm => hm.1.elim
    | succ n =>
      cases p with
      | none => exact ih n
      | some p => exact fun _ hm => hm.1.elim

theorem free_children_frees {release : ℕ → Heaped Unit} {a : ℕ} {n : Node}
    (hrelease : ∀ a x, Triple (rep a x) (release a) fun _ => some_node a)
    (xs : Option (List (Option ι))) :
    Triple (cell a (.node n) * children_at rep n xs) (free_children release a)
      fun _ => some_node a := by
  rw [free_children]
  apply bind_load_node
  rcases n with ⟨value, flags, key, alloc_cnt, ptr⟩
  cases xs with
  | none =>
    rw [children_at, mul_comm]
    apply triple_fact
    rintro rfl
    exact triple_pure (entails_some_node a _)
  | some xs =>
    rw [children_at, mul_comm, any_mul]
    apply triple_any
    intro p
    rw [any_mul]
    apply triple_any
    intro ps
    rw [mul_assoc]
    apply triple_fact
    rintro ⟨rfl, rfl⟩
    have hall : ∀ a (x : ι), Triple (rep a x) (pure true : Heaped Bool)
        fun found => fact (found = true) * rep a x :=
      fun a x => triple_pure (entails_fact rfl)
    apply bind_frame (clear_slots_clears hall (fun a x _ => hrelease a x) ps xs [])
    intro _
    rw [any_mul]
    apply triple_any
    intro ps'
    rw [clear_all, mul_assoc]
    apply bind_free
    refine (triple_write.frame _).weaken (entails_of_eq (mul_comm _ _)) fun _ => ?_
    refine (entails_mul (entails_some_node a _) (slots_at_cleared ps' xs.length)).trans
      (entails_of_eq (mul_one _))

/-- Freeing a node frees all that it holds, up to its own block. -/
theorem tree_free_node {depth : ℕ}
    (hrelease : ∀ a x, Triple (rep a x) (tree_free depth a) fun _ => some_node a) (a : ℕ)
    (x : Shape ι) : Triple (node_at rep a x) (tree_free (depth + 1) a) fun _ => some_node a := by
  apply triple_any
  intro n
  apply triple_fact
  intro _
  rw [← mul_assoc]
  apply bind_frame free_key_frees
  intro _
  rw [← mul_assoc]
  apply bind_frame (free_value_frees (n := { n with key := none }))
  intro _
  rw [any_mul]
  apply triple_any
  intro v
  exact free_children_frees (n := { n with key := none, value := v }) hrelease x.slots

theorem tree_free_item (depth a : ℕ) (item : Item) :
    Triple (item_at a item) (tree_free (depth + 1) a) fun _ => some_node a :=
  tree_free_node (fun _ (e : Empty) => e.elim) a _

theorem tree_free_tree (depth a : ℕ) (tree : Tree) :
    Triple (tree_at a tree) (tree_free (depth + 2) a) fun _ => some_node a :=
  tree_free_node (tree_free_item depth) a _

end Freeing


/-! ## A new item -/

section NewItem

variable {ι : Type} {rep : ℕ → ι → Assertion Chunk} {A : Allocator}

/-- Where the next item goes, and the array that it goes into. -/
inductive Room {α : Type} (slots : List (Option α)) : ℕ → List (Option α) → Prop
  | free {i : ℕ} (h : slots.findIdx? Option.isNone = some i) (hlow : i < 2 ^ 31) :
    Room slots i slots
  | grown (h : slots.findIdx? Option.isNone = none) (hlow : slots.length < 2 ^ 31) :
    Room slots slots.length (slots ++ List.replicate 10 none)

theorem Room.empty {α : Type} {slots slots' : List (Option α)} {i : ℕ} (h : Room slots i slots') :
    slots'[i]? = some none := by
  cases h with
  | free h =>
    obtain ⟨hi, hnone, -⟩ := List.findIdx?_eq_some_iff_getElem.mp h
    rw [List.getElem?_eq_getElem hi, Option.isNone_iff_eq_none.mp hnone]
  | grown h =>
    rw [List.getElem?_append_right (Nat.le_refl _), Nat.sub_self]
    rfl

theorem find_null_all (slots : List (Option ℕ)) :
    find_null slots.length slots = .ok (slots.findIdx? Option.isNone) := by
  induction slots with
  | nil => rfl
  | cons child rest ih =>
    rw [List.length_cons, find_null, List.findIdx?_cons, ih]
    cases child <;> rfl

theorem slots_at_empty {ps : List (Option ℕ)} {xs : List (Option ι)} {m : Heap Chunk}
    (h : slots_at rep ps xs m) : ps.map Option.isNone = xs.map Option.isNone := by
  induction ps generalizing xs m with
  | nil =>
    cases xs with
    | nil => rfl
    | cons x xs => exact h.1.elim
  | cons p ps ih =>
    rcases p with _ | p <;> rcases xs with _ | ⟨_ | x, xs⟩ <;> try exact h.1.elim
    · exact congrArg (true :: ·) (ih h)
    · obtain ⟨-, right, -, -, -, hright⟩ := h
      exact congrArg (false :: ·) (ih hright)

theorem slots_at_set {item : ℕ} {y : ι} (ps : List (Option ℕ)) (xs : List (Option ι)) (i : ℕ)
    (hi : xs[i]? = some none) : Entails (rep item y * slots_at rep ps xs)
      (slots_at rep (ps.set i (some item)) (xs.set i (some y))) := by
  induction ps generalizing xs i with
  | nil =>
    cases xs with
    | nil => cases hi
    | cons x xs => exact entails_impossible
  | cons p ps ih =>
    cases xs with
    | nil => cases hi
    | cons x xs =>
      cases i with
      | zero =>
        obtain rfl := Option.some.inj hi
        cases p with
        | none => exact Entails.refl _
        | some p => exact entails_impossible
      | succ i =>
        rcases p with _ | p <;> rcases x with _ | x
        · exact ih xs i hi
        · exact entails_impossible
        · exact entails_impossible
        · exact (entails_of_eq (mul_left_comm _ _ _)).trans
            (entails_mul (Entails.refl _) (ih xs i hi))

theorem slots_at_grow (n : ℕ) (ps : List (Option ℕ)) (xs : List (Option ι)) :
    Entails (slots_at rep ps xs)
      (slots_at rep (ps ++ List.replicate n none) (xs ++ List.replicate n none)) := by
  induction ps generalizing xs with
  | nil =>
    cases xs with
    | nil =>
      induction n with
      | zero => exact Entails.refl _
      | succ n ih => exact ih
    | cons x xs => exact fun m hm => hm.1.elim
  | cons p ps ih =>
    rcases p with _ | p <;> rcases xs with _ | ⟨_ | x, xs⟩ <;> try exact fun m hm => hm.1.elim
    · exact ih xs
    · exact entails_mul (Entails.refl _) (ih xs)

/-- The pointers have room where the children have. -/
theorem Room.pointers {ps : List (Option ℕ)} {xs xs' : List (Option ι)} {i : ℕ}
    (h : Room xs i xs') (hempty : ps.map Option.isNone = xs.map Option.isNone) :
    ∃ ps', Room ps i ps' ∧ ps'.length = xs'.length ∧
      Entails (slots_at rep ps xs) (slots_at rep ps' xs') := by
  have hlen : ps.length = xs.length := by simpa using congrArg List.length hempty
  have hfind : ps.findIdx? Option.isNone = xs.findIdx? Option.isNone := by
    have hid := congrArg (List.findIdx? id) hempty
    rwa [List.findIdx?_map, List.findIdx?_map] at hid
  cases h with
  | free h hlow => exact ⟨ps, .free (hfind.trans h) hlow, hlen, Entails.refl _⟩
  | grown h hlow =>
    refine ⟨ps ++ List.replicate 10 none, ?_, ?_, slots_at_grow 10 ps xs⟩
    · rw [← hlen]
      exact .grown (hfind.trans h) (hlen.trans_lt hlow)
    · rw [List.length_append, List.length_append, hlen, List.length_replicate,
        List.length_replicate]

variable {a p : ℕ} {n : Node} {ps qs : List (Option ℕ)}

theorem tree_get_new_index_finds (hptr : n.ptr = some p) (hcnt : n.alloc_cnt = ps.length)
    (hpos : 0 < ps.length) :
    Triple (cell a (.node n) * cell p (.slots ps)) (tree_get_new_index a) fun idx =>
      fact (idx = (ps.findIdx? Option.isNone).elim EISFULL int_of) *
        (cell a (.node n) * cell p (.slots ps)) := by
  rw [tree_get_new_index]
  apply bind_load_node
  rw [if_neg (by omega), hptr, hcnt, mul_comm]
  apply bind_load_slots
  rw [find_null_all, checked, pure_bind]
  apply triple_pure
  rw [mul_comm]
  exact entails_fact rfl

theorem tree_expand_moves (hptr : n.ptr = some p) (hcnt : n.alloc_cnt = ps.length)
    (hlow : ps.length < 2 ^ 31) :
    Triple (cell a (.node n) * cell p (.slots ps)) (tree_expand A a) fun idx =>
      fact (idx = int_of ps.length) * any fun p' =>
        cell a (.node { n with alloc_cnt := ps.length + 10, ptr := some p' }) *
          cell p' (.slots (ps ++ List.replicate 10 none)) := by
  have hwrap : (ps.length + 10) % 2 ^ 32 = ps.length + 10 := Nat.mod_eq_of_lt (by omega)
  rw [tree_expand]
  apply bind_load_node
  rw [hptr, hcnt, hwrap, mul_comm]
  apply bind_load_slots
  apply bind_free
  rw [List.take_of_length_le (by omega), Nat.add_sub_cancel_left]
  apply bind_alloc
  intro p'
  rw [mul_comm]
  apply bind_write
  apply triple_pure
  refine Entails.trans ?_ (entails_fact rfl)
  exact entails_any (P := fun p' =>
    cell a (Chunk.node { n with alloc_cnt := ps.length + 10, ptr := some p' }) *
      cell p' (Chunk.slots (ps ++ List.replicate 10 none))) p'

theorem place_item_places {i : ℕ} (hptr : n.ptr = some p) (hi : i < ps.length) :
    Triple (cell a (.node n) * cell p (.slots ps)) (place_item A a i) fun item =>
      cell item (.node cleared) *
        (cell a (.node n) * cell p (.slots (ps.set i (some item)))) := by
  rw [place_item]
  apply bind_load_node
  apply bind_alloc
  intro item
  rw [hptr, mul_comm, mul_comm (cell a _), mul_assoc]
  apply bind_load_slots
  rw [if_pos ⟨Int.natCast_nonneg i, Int.ofNat_lt.mpr hi⟩, Int.toNat_natCast]
  apply bind_write
  exact triple_pure (entails_of_eq (by ac_rfl))

/-- A new item gets the first free slot, in an array that has moved if it was full. -/
theorem tree_new_item_places {i : ℕ} (hptr : n.ptr = some p) (hcnt : n.alloc_cnt = ps.length)
    (hpos : 0 < ps.length) (hroom : Room ps i qs) :
    Triple (cell a (.node n) * cell p (.slots ps)) (tree_new_item A a) fun item => any fun p' =>
      cell item (.node cleared) *
        (cell a (.node { n with alloc_cnt := qs.length, ptr := some p' }) *
          cell p' (.slots (qs.set i (some item)))) := by
  have hnode : n = { n with alloc_cnt := ps.length, ptr := some p } := by
    rw [← hptr, ← hcnt]
  rw [tree_new_item]
  apply (tree_get_new_index_finds hptr hcnt hpos).bind
  intro idx
  apply triple_fact
  rintro rfl
  cases hroom with
  | free h hlow =>
    obtain ⟨hi, -⟩ := List.findIdx?_eq_some_iff_getElem.mp h
    rw [h, Option.elim_some, int_of_lt hlow, if_neg (by simp [ENOROOT]),
      if_neg (by simp [EISFULL])]
    refine (place_item_places hptr hi).weaken (Entails.refl _) fun item => ?_
    rw [hnode]
    exact entails_any (P := fun p' => cell item (Chunk.node cleared) *
      (cell a (Chunk.node { n with alloc_cnt := ps.length, ptr := some p' }) *
        cell p' (Chunk.slots (ps.set i (some item))))) p
  | grown h hlow =>
    rw [h, Option.elim_none, if_neg (by decide), if_pos rfl]
    apply (tree_expand_moves hptr hcnt hlow).bind
    intro idx
    apply triple_fact
    rintro rfl
    apply triple_any
    intro p'
    rw [int_of_lt hlow]
    have hlen : (ps ++ List.replicate 10 none).length = ps.length + 10 := by
      rw [List.length_append, List.length_replicate]
    refine (place_item_places (n := { n with alloc_cnt := ps.length + 10, ptr := some p' }) rfl
      (by omega)).weaken (Entails.refl _) fun item => ?_
    rw [hlen]
    exact entails_any (P := fun p' => cell item (Chunk.node cleared) *
      (cell a (Chunk.node { n with alloc_cnt := ps.length + 10, ptr := some p' }) *
        cell p' (Chunk.slots ((ps ++ List.replicate 10 none).set ps.length (some item))))) p'

end NewItem


/-! ## The operations keep what the tree holds -/

section Keeping

variable {ι α : Type} {rep : ℕ → ι → Assertion Chunk} {A : Allocator} {a p : ℕ} {n : Node}
  {x : Shape ι} {xs : List (Option ι)} {ps : List (Option ℕ)}

theorem triple_node {c : Heaped α} {Q : α → Assertion Chunk} (hxs : x.slots = some xs)
    (h : ∀ n p ps, n.flags = x.flags → n.ptr = some p → n.alloc_cnt = xs.length →
      ps.map Option.isNone = xs.map Option.isNone →
      Triple (cell a (.node n) * cell p (.slots ps) *
        (text_at n.key x.key * value_at n.value x.value * slots_at rep ps xs)) c Q) :
    Triple (node_at rep a x) c Q := by
  apply triple_any
  intro n
  apply triple_fact
  intro hflags
  rw [hxs, children_at, ← mul_assoc, ← mul_assoc, mul_comm, any_mul]
  apply triple_any
  intro p
  rw [any_mul]
  apply triple_any
  intro ps
  rw [mul_assoc]
  apply triple_fact
  rintro ⟨hptr, hcnt⟩
  have hempty : ∀ m, (cell p (.slots ps) * slots_at rep ps xs *
      (cell a (.node n) * text_at n.key x.key * value_at n.value x.value) : Assertion Chunk) m →
      ps.map Option.isNone = xs.map Option.isNone := by
    rintro m ⟨_, _, -, -, ⟨_, _, -, -, -, hslots⟩, -⟩
    exact slots_at_empty hslots
  refine triple_learn hempty fun hnone => ?_
  exact (h n p ps hflags hptr hcnt hnone).of_eq (by ac_rfl)

theorem entails_children (hptr : n.ptr = some p) (hcnt : n.alloc_cnt = xs.length) :
    Entails (cell p (.slots ps) * slots_at rep ps xs) (children_at rep n (some xs)) :=
  fun _ hm => ⟨p, ps, fact_mul_holds.mpr ⟨⟨hptr, hcnt⟩, hm⟩⟩

theorem entails_node (hflags : n.flags = x.flags) (hptr : n.ptr = some p)
    (hcnt : n.alloc_cnt = xs.length) (hxs : x.slots = some xs) :
    Entails (cell a (.node n) * cell p (.slots ps) *
        (text_at n.key x.key * value_at n.value x.value * slots_at rep ps xs))
      (node_at rep a x) := by
  intro m hm
  refine ⟨n, fact_mul_holds.mpr ⟨hflags, ?_⟩⟩
  rw [hxs]
  have hchildren : Entails (cell p (.slots ps) * slots_at rep ps xs)
      (children_at rep n (some xs)) := entails_children hptr hcnt
  refine entails_mul (Entails.refl _) (entails_mul (Entails.refl _)
    (entails_mul (Entails.refl _) hchildren)) m ?_
  exact entails_of_eq (by ac_rfl) m hm

theorem entails_tree (tree : Tree) (ps : List (Option ℕ)) (hflags : n.flags = tree.flags)
    (hptr : n.ptr = some p) (hcnt : n.alloc_cnt = tree.ptr.length) :
    Entails (cell a (.node n) * cell p (.slots ps) *
        (text_at n.key none * value_at n.value .T_NULL * slots_at item_at ps tree.ptr))
      (tree_at a tree) :=
  entails_node (x := ⟨tree.flags, none, .T_NULL, some tree.ptr⟩) hflags hptr hcnt rfl

theorem entails_item {it k : ℕ} {v : NodeValue} {item : Item} :
    Entails (cell it (.node { cleared with key := some k, value := v }) *
      (cell k (.text item.key) * value_at v item.value)) (item_at it item) := by
  intro m hm
  refine ⟨{ cleared with key := some k, value := v }, fact_mul_holds.mpr ⟨rfl, ?_⟩⟩
  refine entails_mul (Entails.refl _) (entails_mul (Entails.refl _) ?_) m hm
  rw [mul_comm]
  exact entails_fact rfl

theorem put_room {tree tree' : Tree} {item : Item} (hs : Sound tree)
    (hput : TreeStore.tree_new_item tree item = .ok tree') :
    ∃ i slots, Room tree.ptr i slots ∧ tree'.flags = tree.flags ∧
      tree'.ptr = slots.set i (some item) := by
  have hlow := (put_inv hs hput).2
  rcases free_cases tree.ptr with ⟨front, behind, hp, hi⟩ | ⟨hp, hi⟩
  · rw [hp, entries_split, List.length_append] at hlow
    have hfront : front.length < 2 ^ 31 := by omega
    rw [new_item_low hs hp hi hfront] at hput
    obtain rfl := Except.ok.inj hput
    refine ⟨front.length, tree.ptr, .free hi hfront, rfl, ?_⟩
    rw [hp, fill_first]
  · have hlen := congrArg List.length hp
    rw [List.length_map] at hlen
    have hshort : tree.ptr.length < 2 ^ 31 := by omega
    rw [new_item_full hs hi hshort] at hput
    obtain rfl := Except.ok.inj hput
    refine ⟨tree.ptr.length, _, .grown hi hshort, rfl, ?_⟩
    rw [List.set_append_right _ _ (Nat.le_refl _), Nat.sub_self]
    rfl

theorem put_item_puts {tree tree' : Tree} {item : Item} {make : Heaped NodeValue}
    (hs : Sound tree) (hput : TreeStore.tree_new_item tree item = .ok tree')
    (hmake : Triple 1 make fun v => value_at v item.value) (a : ℕ) :
    Triple (tree_at a tree) (put_item A a item.key make) fun _ => tree_at a tree' := by
  obtain ⟨i, slots, hroom, hflags', hptr'⟩ := put_room hs hput
  apply triple_node (x := ⟨tree.flags, none, .T_NULL, some tree.ptr⟩) rfl
  intro n p ps hflags hptr hcnt hempty
  obtain ⟨ps', hroom', hlen', hmove⟩ : ∃ ps', Room ps i ps' ∧ ps'.length = slots.length ∧
      Entails (slots_at item_at ps tree.ptr) (slots_at item_at ps' slots) :=
    hroom.pointers hempty
  have hlen : ps.length = tree.ptr.length := by simpa using congrArg List.length hempty
  have hpos : 0 < ps.length := by
    rw [hlen, hs.length]
    exact hs.pos
  apply bind_frame (tree_new_item_places hptr (hcnt.trans hlen.symm) hpos hroom')
  intro it
  rw [any_mul]
  apply triple_any
  intro p'
  apply bind_alloc
  intro k
  apply bind_fresh hmake
  intro v
  refine Triple.of_eq (P := cell it (.node cleared) * (cell k (.text item.key) *
    (value_at v item.value * (cell a (.node { n with alloc_cnt := ps'.length, ptr := some p' }) *
      cell p' (.slots (ps'.set i (some it))) *
        (text_at n.key none * value_at n.value .T_NULL * slots_at item_at ps tree.ptr)))))
    (by ac_rfl) ?_
  apply bind_load_node
  refine last_write.weaken (Entails.refl _) fun _ => ?_
  -- the new block and its strings are the item, and its pointer is in the array
  have hslots : Entails (cell it (.node { cleared with key := some k, value := v }) *
      (cell k (.text item.key) * value_at v item.value) * slots_at item_at ps tree.ptr)
      (slots_at item_at (ps'.set i (some it)) (slots.set i (some item))) :=
    (entails_mul entails_item hmove).trans (slots_at_set ps' slots i hroom.empty)
  have hcnt' : ps'.length = tree'.ptr.length := by rw [hptr', List.length_set, hlen']
  refine Entails.trans ?_ (entails_tree (n := { n with alloc_cnt := ps'.length, ptr := some p' })
    tree' (ps'.set i (some it)) (hflags.trans hflags'.symm) rfl hcnt')
  rw [hptr']
  refine Entails.trans ?_ (entails_mul (Entails.refl _) (entails_mul (Entails.refl _) hslots))
  exact entails_of_eq (by ac_rfl)

theorem has_key_finds (key : Bytes) (a : ℕ) (item : Item) :
    Triple (item_at a item) (has_key key a)
      fun found => fact (found = decide (item.key = key)) * item_at a item := by
  apply triple_any
  intro n
  apply triple_fact
  intro hflags
  rw [has_key]
  apply bind_load_node
  have hback : Entails (cell a (.node n) * (text_at n.key (some item.key) *
      (value_at n.value item.value * children_at (fun _ (_ : Empty) => 1) n none)))
      (item_at a item) := fun m hm => ⟨n, fact_mul_holds.mpr ⟨hflags, hm⟩⟩
  cases hkey : n.key with
  | none =>
    change Triple (_ * (fact False * _)) _ _
    rw [mul_left_comm, mul_comm]
    exact triple_impossible
  | some k =>
    rw [hkey] at hback
    change Triple (_ * (cell k (Chunk.text item.key) * _)) _ _
    rw [mul_left_comm]
    apply bind_load_text
    apply triple_pure
    refine Entails.trans ?_ (entails_fact rfl)
    exact (entails_of_eq (mul_left_comm _ _ _)).trans hback

theorem tree_remove_removes {tree tree' : Tree} {key : Bytes} (hs : Sound tree)
    (h : TreeStore.tree_remove tree key = .ok tree') (a : ℕ) :
    Triple (tree_at a tree) (tree_remove a key) fun _ => tree_at a tree' := by
  rw [remove_ok hs] at h
  obtain rfl := Except.ok.inj h
  apply triple_node (x := ⟨tree.flags, none, .T_NULL, some tree.ptr⟩) rfl
  intro n p ps hflags hptr hcnt _
  rw [tree_remove, mul_assoc]
  apply bind_load_node
  rw [← mul_assoc]
  simp only at hflags
  rw [hflags]
  split
  · exact triple_pure (entails_tree tree ps hflags hptr hcnt)
  · have hloop := (clear_slots_clears (has_key_finds key)
      (fun a x _ => tree_free_item 2 a x) (p := p) ps tree.ptr []).frame
        (cell a (.node n) * (text_at n.key none * value_at n.value .T_NULL))
    rw [hptr, hcnt]
    refine hloop.weaken (entails_of_eq ?_) fun _ => ?_
    · rw [List.nil_append]
      ac_rfl
    · rw [any_mul]
      rintro m ⟨ps', hm⟩
      have hcnt' : n.alloc_cnt = (clear (fun x => decide (x.key = key)) tree.ptr).length := by
        rw [hcnt, clear_length]
      have hclosed := entails_tree (a := a) { tree with ptr := clear (·.key = key) tree.ptr } ps'
        hflags hptr hcnt'
      rw [List.nil_append] at hm
      exact hclosed m (entails_of_eq (by ac_rfl) m hm)

theorem triple_make {v : NodeValue} {value : Value} (h : Entails 1 (value_at v value)) :
    Triple 1 (pure v : Heaped NodeValue) fun v => value_at v value := triple_pure h

/-- A call on the heap stands for the call on the values. -/
theorem step_keeps {tree tree' : Tree} {call : Call} (hs : Sound tree)
    (h : TreeStore.step tree call = .ok tree') (a : ℕ) :
    Triple (tree_at a tree) (step A a call) fun _ => tree_at a tree' := by
  cases call with
  | tree_put_int key value =>
    exact put_item_puts hs h (triple_make (v := .T_INT value) fun _ hm => ⟨rfl, hm⟩) a
  | tree_put_float key value =>
    exact put_item_puts hs h (triple_make (v := .T_FLOAT value) fun _ hm => ⟨rfl, hm⟩) a
  | tree_put_str key value =>
    refine put_item_puts hs h ?_ a
    exact (triple_alloc A _).bind fun str => triple_pure (Entails.refl _)
  | tree_put_ptr key value =>
    exact put_item_puts hs h (triple_make (v := .T_POINTER value) fun _ hm => ⟨rfl, hm⟩) a
  | tree_remove key =>
    cases hremove : TreeStore.tree_remove tree key with
    | error e =>
      rw [TreeStore.step, hremove] at h
      cases h
    | ok t =>
      rw [TreeStore.step, hremove] at h
      obtain rfl := Except.ok.inj h
      exact tree_remove_removes hs hremove a

end Keeping

end TreeHeap
