import Ayahesa.TreeStore
import Mathlib.Data.List.Induction

/-! # What a run of puts and removals keeps

The array of a tree has `alloc_cnt` slots, a multiple of ten, and items only in slots whose
number an `int` can hold. The items change as a multiset would: a put adds its own and a
removal takes out those of its key. -/
namespace TreeInvariant

open CMemory HttpRequest SlotStore TreeStore

theorem find_slot_all (test : Option Item → Bool) (slots : List (Option Item)) :
    find_slot test slots.length slots = .ok (slots.findIdx? test) := by
  induction slots with
  | nil => rfl
  | cons slot rest ih =>
    rw [List.length_cons, find_slot, List.findIdx?_cons, ih]
    by_cases h : test slot
    · rw [if_pos h, if_pos h]
    · rw [if_neg h, if_neg h]
      rfl

theorem tree_read_all {α : Type} (select : Value → Option α) (key : Bytes)
    (slots : List (Option Item)) (value : Option α) :
    tree_read select key slots.length slots value = .ok (tree_get select key slots value) := by
  induction slots generalizing value with
  | nil => rfl
  | cons slot rest ih =>
    cases slot with
    | none => exact ih value
    | some item =>
      rw [List.length_cons, tree_read, tree_get]
      by_cases h : item.key = key
      · rw [if_pos h, if_pos h]
        cases select item.value with
        | none => rfl
        | some v => exact ih (some v)
      · rw [if_neg h, if_neg h]
        exact ih value

def of_item {α : Type} (select : Value → Option α) (item : Item) : Option α :=
  select item.value

theorem tree_get_entries {α : Type} (select : Value → Option α) (key : Bytes)
    (slots : List (Option Item)) (value : Option α) :
    tree_get select key slots value =
      lookup (·.key = key) (of_item select) slots.reduceOption value := by
  induction slots generalizing value with
  | nil => rfl
  | cons slot rest ih =>
    cases slot with
    | none => exact ih value
    | some item =>
      rw [List.reduceOption_cons_of_some, tree_get, lookup]
      by_cases h : item.key = key
      · rw [if_pos h, if_pos (decide_eq_true h)]
        rw [of_item]
        cases select item.value with
        | none => rfl
        | some v => exact ih (some v)
      · rw [if_neg h, if_neg (by simpa using h)]
        exact ih value

structure Sound (tree : Tree) : Prop where
  length : tree.ptr.length = tree.alloc_cnt
  tens : 10 ∣ tree.alloc_cnt
  pos : 0 < tree.alloc_cnt
  bound : tree.alloc_cnt ≤ 2 ^ 31 + 2
  low : (tree.ptr.drop (2 ^ 31)).reduceOption = []

theorem fresh_sound (flags : UInt8) : Sound (fresh flags) where
  length := List.length_replicate
  tens := Nat.dvd_refl 10
  pos := Nat.zero_lt_succ 9
  bound := by simp [fresh, tree_new_root]
  low := by simp [fresh, tree_new_root]

/-- The two effects a put can have on the slots. -/
inductive Put (tree : Tree) (item : Item) : Tree → Prop where
  | fill (front : List Item) (behind : List (Option Item))
      (h : tree.ptr = front.map some ++ none :: behind) (hlow : front.length < 2 ^ 31) :
      Put tree item { tree with ptr := front.map some ++ some item :: behind }
  | grow (h : tree.ptr = tree.ptr.reduceOption.map some)
      (hlow : tree.ptr.length < 2 ^ 31) :
      Put tree item
        { tree with
            alloc_cnt := tree.alloc_cnt + 10
            ptr := tree.ptr ++ some item :: List.replicate 9 none }

theorem int_of_lt {n : ℕ} (h : n < 2 ^ 31) : int_of n = n := if_pos h

theorem new_index (tree : Tree) (h : Sound tree) :
    tree_get_new_index tree = .ok ((tree.ptr.findIdx? Option.isNone).elim EISFULL int_of) := by
  have hp := h.pos
  rw [tree_get_new_index, if_neg (by omega), ← h.length, find_slot_all]
  cases tree.ptr.findIdx? Option.isNone <;> rfl

theorem new_item_at {tree : Tree} {idx : ℤ} (hidx : tree_get_new_index tree = .ok idx)
    (hroot : idx ≠ ENOROOT) (hfull : idx ≠ EISFULL) (item : Item) :
    tree_new_item tree item =
      if 0 ≤ idx ∧ idx < tree.ptr.length then
        .ok { tree with ptr := tree.ptr.set idx.toNat (some item) }
      else .error (.fault .outOfBounds) := by
  simp [tree_new_item, hidx, hroot, hfull, bind, Except.bind]

theorem new_item_grown {tree : Tree} (hidx : tree_get_new_index tree = .ok EISFULL)
    (item : Item) :
    tree_new_item tree item =
      if 0 ≤ (tree_expand tree).2 ∧ (tree_expand tree).2 < (tree_expand tree).1.ptr.length then
        .ok { (tree_expand tree).1 with
          ptr := (tree_expand tree).1.ptr.set (tree_expand tree).2.toNat (some item) }
      else .error (.fault .outOfBounds) := by
  simp [tree_new_item, hidx, EISFULL, ENOROOT, bind, Except.bind]

theorem expand_sound {tree : Tree} (h : Sound tree) :
    tree_expand tree =
      ({ tree with
          alloc_cnt := tree.alloc_cnt + 10
          ptr := tree.ptr ++ List.replicate 10 none }, int_of tree.alloc_cnt) := by
  have hb := h.bound
  have hwrap : (tree.alloc_cnt + 10) % 2 ^ 32 = tree.alloc_cnt + 10 :=
    Nat.mod_eq_of_lt (by omega)
  have hkept : tree.ptr.take (tree.alloc_cnt + 10) = tree.ptr :=
    List.take_of_length_le (by have := h.length; omega)
  simp only [tree_expand, hwrap, hkept, Nat.add_sub_cancel_left]

theorem new_item_low {tree : Tree} (h : Sound tree) {front : List Item}
    {behind : List (Option Item)} (hp : tree.ptr = front.map some ++ none :: behind)
    (hi : tree.ptr.findIdx? Option.isNone = some front.length) (hlow : front.length < 2 ^ 31)
    (item : Item) :
    tree_new_item tree item =
      .ok { tree with ptr := front.map some ++ some item :: behind } := by
  have hidx : tree_get_new_index tree = .ok (front.length : ℤ) := by
    rw [new_index tree h, hi, Option.elim_some, int_of_lt hlow]
  have hroot : (front.length : ℤ) ≠ ENOROOT := by simp [ENOROOT]
  have hfull : (front.length : ℤ) ≠ EISFULL := by simp [EISFULL]
  have hlt : (front.length : ℤ) < tree.ptr.length := by
    rw [hp, List.length_append, List.length_map, List.length_cons]
    omega
  rw [new_item_at hidx hroot hfull, if_pos ⟨by omega, hlt⟩, Int.toNat_natCast, hp, fill_first]

theorem new_item_full {tree : Tree} (h : Sound tree)
    (hi : tree.ptr.findIdx? Option.isNone = none) (hlow : tree.ptr.length < 2 ^ 31)
    (item : Item) :
    tree_new_item tree item =
      .ok { tree with
            alloc_cnt := tree.alloc_cnt + 10
            ptr := tree.ptr ++ some item :: List.replicate 9 none } := by
  have hidx : tree_get_new_index tree = .ok EISFULL := by rw [new_index tree h, hi]; rfl
  have hcnt : int_of tree.alloc_cnt = tree.ptr.length := by
    rw [← h.length, int_of_lt hlow]
  have hset : (tree.ptr ++ List.replicate 10 none).set tree.ptr.length (some item) =
      tree.ptr ++ some item :: List.replicate 9 none := by
    rw [List.set_append_right _ _ (Nat.le_refl _), Nat.sub_self]
    rfl
  have hlt : (tree.ptr.length : ℤ) < (tree.ptr ++ List.replicate 10 none).length := by
    rw [List.length_append, List.length_replicate]
    omega
  rw [new_item_grown hidx, expand_sound h, hcnt, if_pos ⟨by omega, hlt⟩, Int.toNat_natCast,
    hset]

/-- A put into a tree with a slot for it, free or to be allocated, that an `int` can number. -/
theorem put_ok {tree : Tree} (h : Sound tree) (hn : tree.ptr.reduceOption.length < 2 ^ 31)
    (item : Item) : ∃ tree', tree_new_item tree item = .ok tree' ∧ Put tree item tree' := by
  rcases free_cases tree.ptr with ⟨front, behind, hp, hi⟩ | ⟨hp, hi⟩
  · have hlow : front.length < 2 ^ 31 := by
      rw [hp, entries_split, List.length_append] at hn
      omega
    exact ⟨_, new_item_low h hp hi hlow item, Put.fill front behind hp hlow⟩
  · have hlow : tree.ptr.length < 2 ^ 31 := by
      rw [hp, List.length_map]
      exact hn
    exact ⟨_, new_item_full h hi hlow item, Put.grow hp hlow⟩

theorem entries_low {tree : Tree} (h : Sound tree) :
    tree.ptr.reduceOption = (tree.ptr.take (2 ^ 31)).reduceOption := by
  rw [← List.append_nil (tree.ptr.take (2 ^ 31)).reduceOption, ← h.low,
    ← List.reduceOption_append, List.take_append_drop]

theorem entries_bound {tree : Tree} (h : Sound tree) : tree.ptr.reduceOption.length ≤ 2 ^ 31 := by
  have hlen := List.reduceOption_length_le (tree.ptr.take (2 ^ 31))
  rw [entries_low h]
  exact Nat.le_trans hlen (List.length_take_le _ _)

theorem entries_lt_of_free {tree : Tree} (h : Sound tree) {front : List Item}
    {behind : List (Option Item)} (hp : tree.ptr = front.map some ++ none :: behind)
    (hlow : front.length < 2 ^ 31) : tree.ptr.reduceOption.length < 2 ^ 31 := by
  obtain ⟨k, hk⟩ : ∃ k, 2 ^ 31 - front.length = k + 1 := ⟨2 ^ 31 - front.length - 1, by omega⟩
  have hmem : none ∈ tree.ptr.take (2 ^ 31) := by
    rw [hp, List.take_append, List.length_map, hk, List.take_succ_cons]
    exact List.mem_append_right _ List.mem_cons_self
  have hlt := List.reduceOption_length_lt_iff.mpr hmem
  rw [entries_low h]
  exact Nat.lt_of_lt_of_le hlt (List.length_take_le _ _)

/-- With 2^31 items the free slot has a number that is negative as an `int`. -/
theorem put_refused {tree : Tree} (h : Sound tree)
    (hn : 2 ^ 31 ≤ tree.ptr.reduceOption.length) (item : Item) :
    tree_new_item tree item = .error (.fault .outOfBounds) := by
  have hle := entries_bound h
  rcases free_cases tree.ptr with ⟨front, behind, hp, hi⟩ | ⟨hp, -⟩
  · have hge : 2 ^ 31 ≤ front.length := by
      by_contra hlow
      have := entries_lt_of_free h hp (Nat.lt_of_not_le hlow)
      omega
    have heq : front.length = 2 ^ 31 := by
      have hlen := congrArg (List.length ∘ List.reduceOption) hp
      simp only [Function.comp_apply, entries_split, List.length_append] at hlen
      omega
    have hidx : tree_get_new_index tree = .ok (-2 ^ 31) := by
      rw [new_index tree h, hi, heq]
      rfl
    rw [new_item_at hidx (by decide) (by decide), if_neg (by omega)]
  · -- a full array has a multiple of ten slots, which 2^31 is not
    have hlen := congrArg List.length hp
    have htens := h.tens
    rw [List.length_map, h.length] at hlen
    omega

theorem put_inv {tree : Tree} (h : Sound tree) {item : Item} {tree' : Tree} :
    tree_new_item tree item = .ok tree' → Put tree item tree' ∧
      tree.ptr.reduceOption.length < 2 ^ 31 := by
  intro hput
  by_cases hn : tree.ptr.reduceOption.length < 2 ^ 31
  · obtain ⟨t, ht, hPut⟩ := put_ok h hn item
    obtain rfl := Except.ok.inj (ht.symm.trans hput)
    exact ⟨hPut, hn⟩
  · rw [put_refused h (Nat.le_of_not_lt hn)] at hput
    cases hput

section Put

variable {tree tree' : Tree} {item : Item}

theorem Put.flags (h : Put tree item tree') : tree'.flags = tree.flags := by
  cases h <;> rfl

theorem Put.entries (h : Put tree item tree') :
    (tree'.ptr.reduceOption : Multiset Item) = item ::ₘ tree.ptr.reduceOption := by
  apply Multiset.coe_eq_coe.mpr
  cases h with
  | fill front behind hp hlow =>
    rw [hp, entries_split, entries_split]
    exact List.perm_middle
  | grow hp hlow =>
    have hgrow := entries_grow ([] : List (Option Item)) 9
    rw [List.reduceOption_append, List.reduceOption_cons_of_some]
    rw [List.nil_append, List.reduceOption_nil] at hgrow
    rw [hgrow]
    exact List.perm_append_singleton item _

theorem Put.sound (h : Put tree item tree') (hs : Sound tree) : Sound tree' := by
  have hlen := hs.length
  have htens := hs.tens
  have hpos := hs.pos
  cases h with
  | fill front behind hp hlow =>
    refine ⟨?_, htens, hpos, hs.bound, ?_⟩
    · rw [← hlen, hp]
      simp
    · have hl := hs.low
      obtain ⟨k, hk⟩ : ∃ k, 2 ^ 31 - front.length = k + 1 :=
        ⟨2 ^ 31 - front.length - 1, by omega⟩
      rw [hp, List.drop_append, List.length_map, hk, List.drop_succ_cons] at hl
      rw [List.drop_append, List.length_map, hk, List.drop_succ_cons]
      exact hl
  | grow hp hlow =>
    have hcnt : tree.alloc_cnt + 10 ≤ 2 ^ 31 + 2 := by omega
    refine ⟨by simp [hlen], Nat.dvd_add htens (Nat.dvd_refl 10), Nat.add_pos_left hpos 10,
      hcnt, ?_⟩
    obtain ⟨k, hk⟩ : ∃ k, 2 ^ 31 - tree.ptr.length = k + 1 :=
      ⟨2 ^ 31 - tree.ptr.length - 1, by omega⟩
    rw [List.drop_append, hk, List.drop_succ_cons, List.drop_of_length_le (by omega),
      List.drop_replicate]
    exact List.reduceOption_replicate_none

end Put

/-- A removal from a sound tree reads every slot and stays inside the array. -/
theorem remove_ok {tree : Tree} (h : Sound tree) (key : Bytes) :
    tree_remove tree key =
      .ok (if tree.flags &&& T_FLAG_READONLY ≠ 0 then tree
        else { tree with ptr := clear (·.key = key) tree.ptr }) := by
  unfold tree_remove
  by_cases hflag : tree.flags &&& T_FLAG_READONLY ≠ 0
  · rw [if_pos hflag, if_pos hflag]
  · rw [if_neg hflag, if_neg hflag, if_pos (Nat.le_of_eq h.length.symm), ← h.length,
      List.take_length, List.drop_length, List.append_nil]

theorem clear_sound {tree : Tree} (h : Sound tree) (key : Bytes) :
    Sound { tree with ptr := clear (·.key = key) tree.ptr } where
  length := (clear_length _ _).trans h.length
  tens := h.tens
  pos := h.pos
  bound := h.bound
  low := by
    change (List.drop (2 ^ 31) (clear (·.key = key) tree.ptr)).reduceOption = []
    rw [clear, ← List.map_drop, ← clear, entries_clear, h.low, List.filter_nil]

theorem contains_ok {tree : Tree} (h : Sound tree) (key : Bytes) :
    tree_contains tree key = .ok (decide (∃ item ∈ tree.ptr.reduceOption, item.key = key)) := by
  have hany : (tree.ptr.findIdx? (Option.any (·.key = key))).isSome =
      decide (∃ item ∈ tree.ptr.reduceOption, item.key = key) := by
    rw [List.findIdx?_isSome]
    apply Bool.eq_iff_iff.mpr
    rw [List.any_eq_true, decide_eq_true_iff]
    constructor
    · rintro ⟨slot, hmem, hslot⟩
      cases slot with
      | none => cases hslot
      | some item => exact ⟨item, List.reduceOption_mem_iff.mpr hmem, by simpa using hslot⟩
    · rintro ⟨item, hmem, hkey⟩
      exact ⟨some item, List.reduceOption_mem_iff.mp hmem, by simpa using hkey⟩
  rw [tree_contains, ← h.length, find_slot_all, ← hany]
  rfl

/-! ## Runs -/

/-- The items of a tree as they should change with a call. -/
def evolve (flags : UInt8) (items : Multiset Item) (call : Call) : Multiset Item :=
  match call.item? with
  | some item => item ::ₘ items
  | none =>
    if flags &&& T_FLAG_READONLY ≠ 0 then items else items.filter (·.key ≠ call.key)

def evolved (flags : UInt8) (calls : List Call) : Multiset Item :=
  calls.foldl (evolve flags) 0

theorem evolved_concat (flags : UInt8) (calls : List Call) (call : Call) :
    evolved flags (calls ++ [call]) = evolve flags (evolved flags calls) call :=
  List.foldl_concat ..

theorem step_sound {tree tree' : Tree} {call : Call} (h : Sound tree)
    (hstep : step tree call = .ok tree') :
    Sound tree' ∧ tree'.flags = tree.flags ∧
      (tree'.ptr.reduceOption : Multiset Item) =
        evolve tree.flags tree.ptr.reduceOption call := by
  cases hitem : call.item? with
  | some item =>
    rw [step_put hitem] at hstep
    have hput := (put_inv h hstep).1
    refine ⟨hput.sound h, hput.flags, ?_⟩
    rw [hput.entries, evolve, hitem]
  | none =>
    rw [step_remove hitem, remove_ok h] at hstep
    obtain rfl := Except.ok.inj hstep
    rw [evolve, hitem]
    by_cases hflag : tree.flags &&& T_FLAG_READONLY ≠ 0
    · rw [if_pos hflag, if_pos hflag]
      exact ⟨h, rfl, rfl⟩
    · rw [if_neg hflag, if_neg hflag]
      refine ⟨clear_sound h call.key, rfl, ?_⟩
      rw [entries_clear, Multiset.filter_coe]
      simp

theorem run_sound (flags : UInt8) {calls : List Call} {tree : Tree}
    (h : run (fresh flags) calls = .ok tree) :
    Sound tree ∧ tree.flags = flags ∧
      (tree.ptr.reduceOption : Multiset Item) = evolved flags calls := by
  induction calls using List.reverseRecOn generalizing tree with
  | nil =>
    obtain rfl := Except.ok.inj h
    exact ⟨fresh_sound flags, rfl, by simp [fresh, tree_new_root, evolved]⟩
  | append_singleton calls call ih =>
    rw [run_concat] at h
    obtain ⟨before, hrun, hstep⟩ := bind_ok h
    obtain ⟨hsound, hflags, hitems⟩ := ih hrun
    obtain ⟨hsound', hflags', hitems'⟩ := step_sound hsound hstep
    rw [hitems', hflags', hflags, hitems, evolved_concat]
    exact ⟨hsound', rfl, rfl⟩

/-- Every put finds fewer than 2^31 items in the tree. -/
def Fits (flags : UInt8) (calls : List Call) : Prop :=
  ∀ past call, past ++ [call] <+: calls → call.item?.isSome →
    (evolved flags past).card < 2 ^ 31

theorem step_ok {tree : Tree} {call : Call} (h : Sound tree)
    (hfit : call.item?.isSome → tree.ptr.reduceOption.length < 2 ^ 31) :
    ∃ tree', step tree call = .ok tree' := by
  cases hitem : call.item? with
  | some item =>
    obtain ⟨tree', hput, -⟩ := put_ok h (hfit (by rw [hitem]; rfl)) item
    exact ⟨tree', by rw [step_put hitem, hput]⟩
  | none => exact ⟨_, by rw [step_remove hitem, remove_ok h]; rfl⟩

theorem run_ok {flags : UInt8} {calls : List Call} (h : Fits flags calls) :
    ∃ tree, run (fresh flags) calls = .ok tree := by
  induction calls using List.reverseRecOn with
  | nil => exact ⟨_, rfl⟩
  | append_singleton calls call ih =>
    obtain ⟨before, hrun⟩ := ih fun past c hp hc =>
      h past c (hp.trans (List.prefix_append calls [call])) hc
    obtain ⟨hsound, -, hitems⟩ := run_sound flags hrun
    have hcard := congrArg Multiset.card hitems
    rw [Multiset.coe_card] at hcard
    obtain ⟨tree, hstep⟩ := step_ok hsound fun hc => by
      rw [hcard]
      exact h calls call (List.prefix_refl _) hc
    exact ⟨tree, by rw [run_concat, hrun]; exact hstep⟩

/-- After the calls the array has its size, the items are those that should be there and
`tree_contains` finds their keys. -/
def Kept (flags : UInt8) (calls : List Call) : Prop :=
  ∃ tree, run (fresh flags) calls = .ok tree ∧
    tree.ptr.length = tree.alloc_cnt ∧ 0 < tree.alloc_cnt ∧ 10 ∣ tree.alloc_cnt ∧
    (tree.ptr.reduceOption : Multiset Item) = evolved flags calls ∧
    ∀ key, tree_contains tree key =
      .ok (decide (∃ item ∈ tree.ptr.reduceOption, item.key = key))

theorem kept_of_run {flags : UInt8} {calls : List Call} {tree : Tree}
    (h : run (fresh flags) calls = .ok tree) : Kept flags calls := by
  obtain ⟨hsound, -, hitems⟩ := run_sound flags h
  exact ⟨tree, h, hsound.length, hsound.pos, hsound.tens, hitems, contains_ok hsound⟩

theorem card_of_kept {flags : UInt8} {calls : List Call} {call : Call}
    (h : Kept flags (calls ++ [call])) (hput : call.item?.isSome) :
    (evolved flags calls).card < 2 ^ 31 := by
  obtain ⟨tree, hrun, -⟩ := h
  rw [run_concat] at hrun
  obtain ⟨before, hbefore, hstep⟩ := bind_ok hrun
  obtain ⟨hsound, -, hitems⟩ := run_sound flags hbefore
  obtain ⟨item, hitem⟩ := Option.isSome_iff_exists.mp hput
  rw [step_put hitem] at hstep
  rw [← hitems, Multiset.coe_card]
  exact (put_inv hsound hstep).2

theorem kept_along_iff_fits (flags : UInt8) (calls : List Call) :
    (∀ past, past <+: calls → Kept flags past) ↔ Fits flags calls := by
  constructor
  · intro h past call hp hput
    exact card_of_kept (h _ hp) hput
  · intro h past hp
    have hfits : Fits flags past := fun p call hpre hput => h p call (hpre.trans hp) hput
    obtain ⟨tree, hrun⟩ := run_ok hfits
    exact kept_of_run hrun

theorem evolved_replicate (flags : UInt8) (key : Bytes) (value : ℤ) (n : ℕ) :
    (evolved flags (List.replicate n (.tree_put_int key value))).card = n := by
  induction n with
  | zero => rfl
  | succ n ih => simp [List.replicate_succ', evolved_concat, evolve, Call.item?, ih]

theorem put_lost : ¬Kept 0 (List.replicate (2 ^ 31 + 1) (.tree_put_int (bytes "a") 1)) := by
  intro h
  rw [List.replicate_succ'] at h
  have hcard := card_of_kept h rfl
  rw [evolved_replicate] at hcard
  exact Nat.lt_irrefl _ hcard

/-! ## Trees that were only put to -/

/-- The items stand in the order of their puts and no slot between them is free. -/
structure Packed (tree : Tree) (items : List Item) : Prop where
  sound : Sound tree
  packed : ∃ n, tree.ptr = items.map some ++ List.replicate n none

theorem packed_fresh (flags : UInt8) : Packed (fresh flags) [] :=
  ⟨fresh_sound flags, 10, rfl⟩

section Packed

variable {tree tree' : Tree} {items : List Item} {item : Item}

theorem Packed.entries (h : Packed tree items) : tree.ptr.reduceOption = items := by
  obtain ⟨n, hp⟩ := h.packed
  rw [hp, entries_grow, entries_map_some]

theorem Packed.put (h : Packed tree items) (hput : tree_new_item tree item = .ok tree') :
    Packed tree' (items ++ [item]) := by
  have hPut := (put_inv h.sound hput).1
  refine ⟨hPut.sound h.sound, ?_⟩
  cases hPut with
  | fill front behind hp hlow =>
    obtain ⟨n, hn⟩ := h.packed
    obtain ⟨rfl, hbehind⟩ := free_of_packed (hp.symm.trans hn)
    obtain ⟨m, rfl⟩ : ∃ m, n = m + 1 := by
      cases n with
      | zero => cases hbehind
      | succ m => exact ⟨m, rfl⟩
    refine ⟨m, ?_⟩
    simp [List.tail_eq_of_cons_eq hbehind]
  | grow hp hlow =>
    rw [h.entries] at hp
    exact ⟨9, by simp [hp]⟩

theorem Packed.put_ok (h : Packed tree items) (hn : items.length < 2 ^ 31) :
    ∃ tree', tree_new_item tree item = .ok tree' := by
  obtain ⟨tree', hput, -⟩ := TreeInvariant.put_ok h.sound (h.entries.symm ▸ hn) item
  exact ⟨tree', hput⟩

end Packed

end TreeInvariant
