import Ayahesa.CMemory

/-! # Requests and the session tree

A tree is read by key: every slot is looked at, a later match overrides an earlier one and a
match of another type ends the search. -/
namespace HttpRequest

open CMemory

/-- A value with its type; a float is kept as its bits and a pointer as its address. -/
inductive Value where
  | T_NULL
  | T_INT (i : ℤ)
  | T_FLOAT (f : UInt32)
  | T_STRING (str : Bytes)
  | T_POINTER (ptr : UInt64)
  deriving DecidableEq, Repr

structure Item where
  key : Bytes
  value : Value
  deriving DecidableEq, Repr

structure AppTree where
  slots : List (Option Item)
  deriving DecidableEq, Repr

def Value.str? : Value → Option Bytes
  | .T_STRING str => some str
  | _ => none

/-- The loop of the `tree_get` functions; `select` is the check of the type. -/
def tree_get {α : Type} (select : Value → Option α) (key : Bytes) :
    List (Option Item) → Option α → Option α
  | [], value => value
  | none :: rest, value => tree_get select key rest value
  | some item :: rest, value =>
    if item.key = key then
      match select item.value with
      | none => value
      | some v => tree_get select key rest (some v)
    else tree_get select key rest value

def tree_get_str (tree : AppTree) (key : Bytes) (value : Option Bytes) : Option Bytes :=
  tree_get Value.str? key tree.slots value

/-- `struct request_data`; `object_id` is an `unsigned int`. -/
structure RequestData where
  object_id : ℕ
  principal : Option Bytes
  session : Option AppTree
  deriving DecidableEq, Repr

/-- What `aya_calloc` gives for a `struct request_data`. -/
def RequestData.zero : RequestData := ⟨0, none, none⟩

def http_auth_principal (hdlr_extra : Option RequestData) : Option Bytes :=
  hdlr_extra.bind RequestData.principal

end HttpRequest
