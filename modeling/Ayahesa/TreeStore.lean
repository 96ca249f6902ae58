import Ayahesa.HttpRequest
import Ayahesa.SlotStore
import Mathlib.Data.Multiset.Filter

/-! # The item tree

A tree keeps its items in an array of slots. A put takes the first free slot and lets the
array grow by ten when there is none, a removal frees every slot of the key, and the
getters look through all slots. -/
namespace TreeStore

open CMemory HttpRequest SlotStore

def T_FLAG_READONLY : UInt8 := 0x1

def ENOROOT : ℤ := -1

def EISFULL : ℤ := -2

/-- An `unsigned int` that is returned as an `int`. -/
def int_of (n : ℕ) : ℤ := if n < 2 ^ 31 then n else n - 2 ^ 32

/-- A `struct app_tree` above its items; `alloc_cnt` and `ptr` are those of its `child`. -/
structure Tree where
  flags : UInt8
  alloc_cnt : ℕ
  ptr : List (Option Item)
  deriving DecidableEq, Repr

def tree_new_root (node : Tree) : Tree :=
  { node with alloc_cnt := 10, ptr := List.replicate 10 none }

/-- A loop over a number of slots that leaves at the first one to pass a test. -/
def find_slot (test : Option Item → Bool) : ℕ → List (Option Item) → C (Option ℕ)
  | 0, _ => .ok none
  | _ + 1, [] => .error .outOfBounds
  | n + 1, slot :: rest =>
    if test slot then .ok (some 0) else (find_slot test n rest).map (Option.map (· + 1))

def tree_get_new_index (node : Tree) : C ℤ :=
  if node.alloc_cnt = 0 then .ok ENOROOT
  else (find_slot Option.isNone node.alloc_cnt node.ptr).map fun
    | some i => int_of i
    | none => EISFULL

/-- The counter wraps at the width of an `unsigned int`; only the new tail is cleared. -/
def tree_expand (node : Tree) : Tree × ℤ :=
  let alloc_cnt := (node.alloc_cnt + 10) % 2 ^ 32
  let kept := node.ptr.take alloc_cnt
  ({ node with
      alloc_cnt := alloc_cnt
      ptr := kept ++ List.replicate (alloc_cnt - node.alloc_cnt) none },
    int_of node.alloc_cnt)

def tree_new_item (tree : Tree) (item : Item) : Proc Tree := do
  let idx ← lift (tree_get_new_index tree)
  if idx = ENOROOT then .error (.abort [])
  else
    let (tree, idx) := if idx = EISFULL then tree_expand tree else (tree, idx)
    if 0 ≤ idx ∧ idx < tree.ptr.length then
      .ok { tree with ptr := tree.ptr.set idx.toNat (some item) }
    else .error (.fault .outOfBounds)

def tree_put_int (tree : Tree) (key : Bytes) (value : ℤ) : Proc Tree :=
  tree_new_item tree ⟨key, .T_INT value⟩

def tree_put_float (tree : Tree) (key : Bytes) (value : UInt32) : Proc Tree :=
  tree_new_item tree ⟨key, .T_FLOAT value⟩

def tree_put_str (tree : Tree) (key value : Bytes) : Proc Tree :=
  tree_new_item tree ⟨key, .T_STRING value⟩

def tree_put_ptr (tree : Tree) (key : Bytes) (value : UInt64) : Proc Tree :=
  tree_new_item tree ⟨key, .T_POINTER value⟩

def tree_contains (tree : Tree) (key : Bytes) : C Bool :=
  (find_slot (Option.any (·.key = key)) tree.alloc_cnt tree.ptr).map Option.isSome

def tree_remove (tree : Tree) (key : Bytes) : C Tree :=
  if tree.flags &&& T_FLAG_READONLY ≠ 0 then .ok tree
  else if tree.alloc_cnt ≤ tree.ptr.length then
    .ok { tree with ptr := clear (·.key = key) (tree.ptr.take tree.alloc_cnt) ++
            tree.ptr.drop tree.alloc_cnt }
  else .error .outOfBounds

/-- The loop of the getters, as `HttpRequest.tree_get`, over a counted number of slots. -/
def tree_read {α : Type} (select : Value → Option α) (key : Bytes) :
    ℕ → List (Option Item) → Option α → C (Option α)
  | 0, _, value => .ok value
  | _ + 1, [], _ => .error .outOfBounds
  | n + 1, none :: rest, value => tree_read select key n rest value
  | n + 1, some item :: rest, value =>
    if item.key = key then
      match select item.value with
      | none => .ok value
      | some v => tree_read select key n rest (some v)
    else tree_read select key n rest value

def int? : Value → Option ℤ
  | .T_INT i => some i
  | _ => none

def float? : Value → Option UInt32
  | .T_FLOAT f => some f
  | _ => none

def ptr? : Value → Option UInt64
  | .T_POINTER ptr => some ptr
  | _ => none

def tree_get_int (tree : Tree) (key : Bytes) (value : Option ℤ) : C (Option ℤ) :=
  tree_read int? key tree.alloc_cnt tree.ptr value

def tree_get_float (tree : Tree) (key : Bytes) (value : Option UInt32) : C (Option UInt32) :=
  tree_read float? key tree.alloc_cnt tree.ptr value

def tree_get_str (tree : Tree) (key : Bytes) (value : Option Bytes) : C (Option Bytes) :=
  tree_read Value.str? key tree.alloc_cnt tree.ptr value

def tree_get_ptr (tree : Tree) (key : Bytes) (value : Option UInt64) : C (Option UInt64) :=
  tree_read ptr? key tree.alloc_cnt tree.ptr value

/-! ## Calls and runs -/

inductive Call where
  | tree_put_int (key : Bytes) (value : ℤ)
  | tree_put_float (key : Bytes) (value : UInt32)
  | tree_put_str (key value : Bytes)
  | tree_put_ptr (key : Bytes) (value : UInt64)
  | tree_remove (key : Bytes)
  deriving DecidableEq, Repr

def Call.key : Call → Bytes
  | .tree_put_int key _ | .tree_put_float key _ | .tree_put_str key _ | .tree_put_ptr key _
  | .tree_remove key => key

def Call.item? : Call → Option Item
  | .tree_put_int key value => some ⟨key, .T_INT value⟩
  | .tree_put_float key value => some ⟨key, .T_FLOAT value⟩
  | .tree_put_str key value => some ⟨key, .T_STRING value⟩
  | .tree_put_ptr key value => some ⟨key, .T_POINTER value⟩
  | .tree_remove _ => none

def step (tree : Tree) : Call → Proc Tree
  | .tree_put_int key value => tree_put_int tree key value
  | .tree_put_float key value => tree_put_float tree key value
  | .tree_put_str key value => tree_put_str tree key value
  | .tree_put_ptr key value => tree_put_ptr tree key value
  | .tree_remove key => lift (tree_remove tree key)

def run (tree : Tree) (calls : List Call) : Proc Tree := calls.foldlM step tree

def fresh (flags : UInt8) : Tree := tree_new_root ⟨flags, 0, []⟩

theorem step_put {call : Call} {item : Item} (h : call.item? = some item) (tree : Tree) :
    step tree call = tree_new_item tree item := by
  cases call <;> cases h <;> rfl

theorem step_remove {call : Call} (h : call.item? = none) (tree : Tree) :
    step tree call = lift (tree_remove tree call.key) := by
  cases call with
  | tree_remove key => rfl
  | _ => cases h

theorem item_key {call : Call} {item : Item} (h : call.item? = some item) :
    item.key = call.key := by
  cases call with
  | tree_remove key => cases h
  | _ => cases h; rfl

@[simp] theorem run_nil (tree : Tree) : run tree [] = .ok tree := rfl

theorem run_cons (tree : Tree) (call : Call) (calls : List Call) :
    run tree (call :: calls) = (step tree call >>= fun t => run t calls) := List.foldlM_cons

theorem run_append (tree : Tree) (calls more : List Call) :
    run tree (calls ++ more) = (run tree calls >>= fun t => run t more) := List.foldlM_append

theorem run_concat (tree : Tree) (calls : List Call) (call : Call) :
    run tree (calls ++ [call]) = (run tree calls >>= fun t => step t call) := by
  simp [run]

end TreeStore
