import Ayahesa.AppConfig
import Ayahesa.TreeLookup

/-! # What a configuration answers

A query passes the values of its key as long as they are of the type of the first one, and
returns the last of these. -/
namespace ConfigQueries

open CMemory HttpRequest SlotStore TreeStore TreeInvariant TreeLookup AppConfig

def config_get_float (app : App) (key : Bytes) (value : Option UInt32) : C (Option UInt32) :=
  tree_get_float app.config key value

def config_get_ptr (app : App) (key : Bytes) (value : Option UInt64) : C (Option UInt64) :=
  tree_get_ptr app.config key value

def values (items : List Item) (key : Bytes) : List Value :=
  (items.filter (·.key = key)).map Item.value

/-- The value that queries of its type return; queries of other types return their default. -/
def visible (vs : List Value) : Option Value := (leading type vs).getLast?

structure SameAnswers (app app' : App) (key : Bytes) : Prop where
  int : ∀ value, config_get_int app key value = config_get_int app' key value
  float : ∀ value, config_get_float app key value = config_get_float app' key value
  str : ∀ value, config_get_str app key value = config_get_str app' key value
  ptr : ∀ value, config_get_ptr app key value = config_get_ptr app' key value

section Queries

variable {app app' : App} {items items' : List Item} {key : Bytes}

theorem read_values {α : Type} (select : Value → Option α) (h : Packed app.config items)
    (key : Bytes) (value : Option α) :
    tree_read select key app.config.alloc_cnt app.config.ptr value =
      .ok (lookup (fun _ => true) select (values items key) value) := by
  have hmap : lookup (fun _ => true) (of_item select) (items.filter (·.key = key)) value =
      lookup (fun _ => true) select (values items key) value := by
    rw [values, lookup_map]
    rfl
  rw [read_sound h.sound, ofKey, h.entries, hmap]

theorem read_visible {α : Type} {select : Value → Option α} (hs : Typed select)
    (h : Packed app.config items) (key : Bytes) (value : Option α) :
    tree_read select key app.config.alloc_cnt app.config.ptr value =
      .ok (((visible (values items key)).bind select).or value) := by
  rw [read_values select h, lookup_leading hs]
  rfl

theorem config_get_int_eq (h : Packed app.config items) (key : Bytes) (value : Option ℤ) :
    config_get_int app key value = .ok (((visible (values items key)).bind int?).or value) :=
  read_visible int?_typed h key value

theorem config_get_float_eq (h : Packed app.config items) (key : Bytes) (value : Option UInt32) :
    config_get_float app key value = .ok (((visible (values items key)).bind float?).or value) :=
  read_visible float?_typed h key value

theorem config_get_str_eq (h : Packed app.config items) (key : Bytes) (value : Option Bytes) :
    config_get_str app key value = .ok (((visible (values items key)).bind Value.str?).or value) :=
  read_visible str?_typed h key value

theorem config_get_ptr_eq (h : Packed app.config items) (key : Bytes) (value : Option UInt64) :
    config_get_ptr app key value = .ok (((visible (values items key)).bind ptr?).or value) :=
  read_visible ptr?_typed h key value

/-- A value is what the four queries say of it, if it is there at all. -/
theorem value_ext {v v' : Option Value} (hv : v ≠ some .T_NULL) (hv' : v' ≠ some .T_NULL)
    (hint : v.bind int? = v'.bind int?) (hfloat : v.bind float? = v'.bind float?)
    (hstr : v.bind Value.str? = v'.bind Value.str?) (hptr : v.bind ptr? = v'.bind ptr?) :
    v = v' := by
  rcases v with _ | (_ | i | f | s | p)
  · rcases v' with _ | (_ | i' | f' | s' | p')
    · rfl
    · exact absurd rfl hv'
    · cases hint
    · cases hfloat
    · cases hstr
    · cases hptr
  · exact absurd rfl hv
  · rcases v' with _ | (_ | i' | f' | s' | p') <;> cases hint
    rfl
  · rcases v' with _ | (_ | i' | f' | s' | p') <;> cases hfloat
    rfl
  · rcases v' with _ | (_ | i' | f' | s' | p') <;> cases hstr
    rfl
  · rcases v' with _ | (_ | i' | f' | s' | p') <;> cases hptr
    rfl

theorem visible_mem {vs : List Value} {v : Value} (h : visible vs = some v) : v ∈ vs := by
  cases vs with
  | nil => cases h
  | cons first rest =>
    rcases List.mem_cons.mp (List.mem_of_getLast? h) with rfl | hrest
    · exact List.mem_cons_self
    · exact List.mem_cons_of_mem first ((List.takeWhile_prefix _).subset hrest)

def Readable (items : List Item) : Prop := ∀ item ∈ items, item.value ≠ .T_NULL

theorem visible_readable (h : Readable items) (key : Bytes) :
    visible (values items key) ≠ some .T_NULL := by
  intro hnull
  obtain ⟨item, hitem, hvalue⟩ := List.mem_map.mp (visible_mem hnull)
  exact h item (List.mem_of_mem_filter hitem) hvalue

theorem same_answers_iff (h : Packed app.config items) (h' : Packed app'.config items')
    (hr : Readable items) (hr' : Readable items') :
    SameAnswers app app' key ↔ visible (values items key) = visible (values items' key) := by
  constructor
  · intro hsame
    have hint := hsame.int none
    have hfloat := hsame.float none
    have hstr := hsame.str none
    have hptr := hsame.ptr none
    rw [config_get_int_eq h, config_get_int_eq h', Option.or_none, Option.or_none] at hint
    rw [config_get_float_eq h, config_get_float_eq h', Option.or_none, Option.or_none] at hfloat
    rw [config_get_str_eq h, config_get_str_eq h', Option.or_none, Option.or_none] at hstr
    rw [config_get_ptr_eq h, config_get_ptr_eq h', Option.or_none, Option.or_none] at hptr
    exact value_ext (visible_readable hr key) (visible_readable hr' key) (Except.ok.inj hint)
      (Except.ok.inj hfloat) (Except.ok.inj hstr) (Except.ok.inj hptr)
  · intro hvisible
    constructor
    · intro value
      rw [config_get_int_eq h, config_get_int_eq h', hvisible]
    · intro value
      rw [config_get_float_eq h, config_get_float_eq h', hvisible]
    · intro value
      rw [config_get_str_eq h, config_get_str_eq h', hvisible]
    · intro value
      rw [config_get_ptr_eq h, config_get_ptr_eq h', hvisible]

theorem stored_readable (kore_strtonum : Strtonum) (settings : List Setting) :
    Readable (settings.filterMap (stored kore_strtonum)) := by
  intro item hitem
  obtain ⟨s, -, hs⟩ := List.mem_filterMap.mp hitem
  unfold stored at hs
  split at hs
  · obtain rfl := Option.some.inj hs
    exact fun h => nomatch h
  split at hs
  · obtain rfl := Option.some.inj hs
    exact fun h => nomatch h
  split at hs
  · cases hs
  · obtain rfl := Option.some.inj hs
    exact fun h => nomatch h

@[simp] theorem values_append (items more : List Item) (key : Bytes) :
    values (items ++ more) key = values items key ++ values more key := by
  rw [values, List.filter_append, List.map_append]
  rfl

end Queries

/-! ## Values that are added behind others -/

section Added

variable {first : Value} {more added : List Value}

/-- Behind values of several types nothing is looked at. -/
theorem visible_mixed (h : ∃ v ∈ more, type v ≠ type first) (added : List Value) :
    visible (first :: more ++ added) = visible (first :: more) := by
  obtain ⟨v, hv, htype⟩ := h
  obtain ⟨front, behind, rfl⟩ := List.append_of_mem hv
  have hcut : ∀ tail : List Value, (front ++ v :: tail).takeWhile (fun w => type w = type first) =
      front.takeWhile fun w => type w = type first := by
    intro tail
    by_cases hall : ∀ w ∈ front, type w = type first
    · rw [List.takeWhile_append_of_pos (by simpa using hall),
        List.takeWhile_cons_of_neg (by simpa using htype), List.append_nil,
        List.takeWhile_eq_self_iff.mpr (by simpa using hall)]
    · rw [List.takeWhile_append, if_neg]
      intro hlen
      have hself := (List.takeWhile_prefix _).eq_of_length hlen
      exact hall fun w hw => by simpa using List.takeWhile_eq_self_iff.mp hself w hw
  rw [visible, visible, List.cons_append, leading, leading, List.append_assoc, List.cons_append,
    hcut, hcut]

/-- Behind values of one type the added ones of that type are seen. -/
theorem visible_uniform (h : ∀ v ∈ more, type v = type first) (added : List Value) :
    visible (first :: more ++ added) =
      (added.takeWhile fun v => type v = type first).getLast?.or ((first :: more).getLast?) := by
  rw [visible, List.cons_append, leading, List.takeWhile_append_of_pos (by simpa using h),
    ← List.cons_append, List.getLast?_append]

theorem visible_of_uniform (h : ∀ v ∈ more, type v = type first) :
    visible (first :: more) = (first :: more).getLast? := by
  have hadded := visible_uniform h []
  rwa [List.append_nil] at hadded

def Unmoved (vs added : List Value) : Prop :=
  match vs with
  | [] => added = []
  | first :: more => (∃ v ∈ more, type v ≠ type first) ∨
      ∀ last, (added.takeWhile fun v => type v = type first).getLast? = some last →
        (first :: more).getLast? = some last

theorem unmoved_nil (vs : List Value) : Unmoved vs [] := by
  cases vs with
  | nil => rfl
  | cons first more => exact Or.inr fun last h => nomatch h

theorem visible_ne_none {vs : List Value} (h : vs ≠ []) : visible vs ≠ none := by
  obtain ⟨first, more, rfl⟩ := List.exists_cons_of_ne_nil h
  simp [visible, leading]

theorem visible_append_iff (vs added : List Value) :
    visible (vs ++ added) = visible vs ↔ Unmoved vs added := by
  cases vs with
  | nil =>
    rw [List.nil_append]
    constructor
    · intro h
      by_contra hne
      exact visible_ne_none hne h
    · rintro rfl
      rfl
  | cons first more =>
    by_cases hmixed : ∃ v ∈ more, type v ≠ type first
    · exact iff_of_true (visible_mixed hmixed added) (Or.inl hmixed)
    · have huniform : ∀ v ∈ more, type v = type first := by
        simpa using hmixed
      rw [visible_uniform huniform, visible_of_uniform huniform]
      cases hlast : (added.takeWhile fun v => type v = type first).getLast? with
      | none =>
        apply iff_of_true rfl
        exact Or.inr fun last h => nomatch hlast.symm.trans h
      | some last =>
        rw [Option.some_or]
        constructor
        · intro h
          refine Or.inr fun last' h' => ?_
          rw [← h, ← hlast, h']
        · rintro (h | h)
          · exact absurd h hmixed
          · exact (h last hlast).symm

end Added

end ConfigQueries
