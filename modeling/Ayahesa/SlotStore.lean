import Mathlib.Data.List.Basic
import Mathlib.Data.List.ReduceOption
import Mathlib.Data.List.TakeWhile

/-! # Arrays of optional slots

An array of slots holds its entries in slot order. An entry is added in the first free slot,
which may lie between others, entries are taken out by clearing their slots, and a full
array grows by free slots at its end. A lookup goes through the entries in slot order,
keeps the last hit it could select and stops at the first hit it could not. -/
namespace SlotStore

variable {α β : Type*}

theorem free_cases (slots : List (Option α)) :
    (∃ (front : List α) (behind : List (Option α)), slots = front.map some ++ none :: behind ∧
      slots.findIdx? Option.isNone = some front.length) ∨
    (slots = slots.reduceOption.map some ∧ slots.findIdx? Option.isNone = none) := by
  induction slots with
  | nil => exact Or.inr ⟨rfl, rfl⟩
  | cons slot rest ih =>
    cases slot with
    | none => exact Or.inl ⟨[], rest, rfl, rfl⟩
    | some a =>
      rcases ih with ⟨front, behind, hrest, hfree⟩ | ⟨hrest, hfree⟩
      · refine Or.inl ⟨a :: front, behind, by simp [hrest], ?_⟩
        simp [List.findIdx?_cons, hfree]
      · refine Or.inr ⟨?_, by simp [List.findIdx?_cons, hfree]⟩
        rw [List.reduceOption_cons_of_some, List.map_cons, ← hrest]

theorem free_of_packed {front items : List α} {behind : List (Option α)} {n : ℕ}
    (h : front.map some ++ none :: behind = items.map some ++ List.replicate n none) :
    front = items ∧ none :: behind = List.replicate n none := by
  induction front generalizing items with
  | nil =>
    cases items with
    | nil => exact ⟨rfl, h⟩
    | cons a items => cases List.head_eq_of_cons_eq h
  | cons a front ih =>
    cases items with
    | nil =>
      cases n with
      | zero => cases h
      | succ n => cases List.head_eq_of_cons_eq h
    | cons b items =>
      obtain rfl : a = b := Option.some.inj (List.head_eq_of_cons_eq h)
      obtain ⟨rfl, hbehind⟩ := ih (List.tail_eq_of_cons_eq h)
      exact ⟨rfl, hbehind⟩

@[simp] theorem entries_map_some (items : List α) :
    (items.map some).reduceOption = items := by
  induction items with
  | nil => rfl
  | cons a items ih => rw [List.map_cons, List.reduceOption_cons_of_some, ih]

theorem entries_split (front : List α) (slot : Option α) (behind : List (Option α)) :
    (front.map some ++ slot :: behind).reduceOption =
      front ++ (slot.toList ++ behind.reduceOption) := by
  rw [List.reduceOption_append, entries_map_some]
  cases slot with
  | none => rw [List.reduceOption_cons_of_none, Option.toList_none, List.nil_append]
  | some a => rw [List.reduceOption_cons_of_some, Option.toList_some, List.singleton_append]

/-- The entry lands behind the entries in front of its slot and before all the others. -/
theorem fill_first (front : List α) (behind : List (Option α)) (a : α) :
    (front.map some ++ none :: behind).set front.length (some a) =
      front.map some ++ some a :: behind := by
  have hlen : front.length = (front.map some).length := by rw [List.length_map]
  rw [hlen, List.set_append_right _ _ (Nat.le_refl _), Nat.sub_self, List.set_cons_zero]

theorem entries_grow (slots : List (Option α)) (n : ℕ) :
    (slots ++ List.replicate n none).reduceOption = slots.reduceOption := by
  rw [List.reduceOption_append, List.reduceOption_replicate_none, List.append_nil]

def clear (hit : α → Bool) (slots : List (Option α)) : List (Option α) :=
  slots.map (Option.filter fun a => !hit a)

@[simp] theorem clear_length (hit : α → Bool) (slots : List (Option α)) :
    (clear hit slots).length = slots.length := List.length_map _

theorem entries_clear (hit : α → Bool) (slots : List (Option α)) :
    (clear hit slots).reduceOption = slots.reduceOption.filter fun a => !hit a := by
  induction slots with
  | nil => rfl
  | cons slot rest ih =>
    cases slot with
    | none => exact ih
    | some a =>
      rw [List.reduceOption_cons_of_some, List.filter_cons, ← ih]
      by_cases ha : hit a
      · have hc : clear hit (some a :: rest) = none :: clear hit rest := by simp [clear, ha]
        rw [hc, List.reduceOption_cons_of_none]
        simp [ha]
      · have hc : clear hit (some a :: rest) = some a :: clear hit rest := by simp [clear, ha]
        rw [hc, List.reduceOption_cons_of_some]
        simp [ha]

def lookup (hit : α → Bool) (select : α → Option β) : List α → Option β → Option β
  | [], value => value
  | a :: rest, value =>
    if hit a then
      match select a with
      | none => value
      | some v => lookup hit select rest (some v)
    else lookup hit select rest value

section Lookup

variable {hit : α → Bool} {select : α → Option β}

@[simp] theorem lookup_nil (value : Option β) : lookup hit select [] value = value := rfl

theorem lookup_miss {a : α} (ha : ¬hit a) (rest : List α) (value : Option β) :
    lookup hit select (a :: rest) value = lookup hit select rest value := if_neg ha

theorem lookup_found {a : α} {v : β} (ha : hit a) (hv : select a = some v) (rest : List α)
    (value : Option β) :
    lookup hit select (a :: rest) value = lookup hit select rest (some v) := by
  rw [lookup, if_pos ha, hv]

theorem lookup_stop {a : α} (ha : hit a) (hv : select a = none) (rest : List α)
    (value : Option β) : lookup hit select (a :: rest) value = value := by
  rw [lookup, if_pos ha, hv]

theorem lookup_filter (items : List α) (value : Option β) :
    lookup hit select items value = lookup (fun _ => true) select (items.filter hit) value := by
  induction items generalizing value with
  | nil => rfl
  | cons a rest ih =>
    by_cases ha : hit a
    · rw [List.filter_cons_of_pos ha]
      cases hv : select a with
      | none => rw [lookup_stop ha hv, lookup_stop rfl hv]
      | some v => rw [lookup_found ha hv, lookup_found rfl hv, ih]
    · rw [List.filter_cons_of_neg ha, lookup_miss ha, ih]

/-- Hits that are all selected give way to a selected one behind them. -/
theorem lookup_selected {front : List α} (h : ∀ a ∈ front, hit a → (select a).isSome)
    {last : α} {v : β} (hlast : hit last) (hv : select last = some v) (behind : List α)
    (value : Option β) :
    lookup hit select (front ++ last :: behind) value = lookup hit select behind (some v) := by
  induction front generalizing value with
  | nil => exact lookup_found hlast hv behind value
  | cons a front ih =>
    have ih := ih fun b hb => h b (List.mem_cons_of_mem a hb)
    rw [List.cons_append]
    by_cases ha : hit a
    · obtain ⟨w, hw⟩ := Option.isSome_iff_exists.mp (h a List.mem_cons_self ha)
      rw [lookup_found ha hw]
      exact ih (some w)
    · rw [lookup_miss ha]
      exact ih value

/-- A search that meets a hit, and none that it can select, leaves the value alone. -/
theorem lookup_refused {front : List α} (h : ∀ a ∈ front, hit a → select a = none)
    {last : α} (hlast : hit last) (hs : select last = none) (behind : List α)
    (value : Option β) : lookup hit select (front ++ last :: behind) value = value := by
  induction front with
  | nil => exact lookup_stop hlast hs behind value
  | cons a front ih =>
    rw [List.cons_append]
    by_cases ha : hit a
    · exact lookup_stop ha (h a List.mem_cons_self ha) _ value
    · rw [lookup_miss ha]
      exact ih fun b hb => h b (List.mem_cons_of_mem a hb)

theorem lookup_last {items : List α} (h : ∀ a ∈ items, hit a → (select a).isSome)
    (value : Option β) :
    lookup hit select items value =
      ((items.filter hit).filterMap select).getLast?.or value := by
  induction items generalizing value with
  | nil => rfl
  | cons a rest ih =>
    have ih := ih fun b hb => h b (List.mem_cons_of_mem a hb)
    by_cases ha : hit a
    · obtain ⟨w, hw⟩ := Option.isSome_iff_exists.mp (h a List.mem_cons_self ha)
      rw [lookup_found ha hw, ih, List.filter_cons_of_pos ha, List.filterMap_cons_some hw,
        List.getLast?_cons]
      cases ((rest.filter hit).filterMap select).getLast? <;> rfl
    · rw [lookup_miss ha, List.filter_cons_of_neg ha]
      exact ih value

/-! ## Values of several kinds -/

/-- The entries in front of the first one that is of another kind than the first. -/
def leading {κ : Type*} [DecidableEq κ] (kind : α → κ) : List α → List α
  | [] => []
  | a :: rest => a :: rest.takeWhile fun b => kind b = kind a

/-- Entries of the kind that is selected are passed until one of another kind comes. -/
theorem lookup_takeWhile {p : α → Bool} (hp : ∀ a, (select a).isSome = p a) (items : List α)
    (value : Option β) :
    lookup (fun _ => true) select items value =
      ((items.takeWhile p).getLast?.bind select).or value := by
  induction items generalizing value with
  | nil => rfl
  | cons a rest ih =>
    cases hv : select a with
    | none =>
      have ha : p a = false := by rw [← hp a, hv, Option.isSome_none]
      rw [lookup_stop rfl hv, List.takeWhile_cons_of_neg (by simp [ha])]
      rfl
    | some v =>
      have ha : p a = true := by rw [← hp a, hv, Option.isSome_some]
      rw [lookup_found rfl hv, ih, List.takeWhile_cons_of_pos ha, List.getLast?_cons]
      cases hlast : (rest.takeWhile p).getLast? with
      | none => simp [hv]
      | some b =>
        have hb : p b = true := List.mem_takeWhile_imp (List.mem_of_getLast? hlast)
        obtain ⟨w, hw⟩ := Option.isSome_iff_exists.mp ((hp b).trans hb)
        simp [hw]

/-- A selection of one kind sees the last of the leading entries or nothing. -/
theorem lookup_leading {κ : Type*} [DecidableEq κ] {kind : α → κ}
    (hs : ∀ a b, (select a).isSome → ((select b).isSome ↔ kind a = kind b)) (items : List α)
    (value : Option β) :
    lookup (fun _ => true) select items value =
      ((leading kind items).getLast?.bind select).or value := by
  cases items with
  | nil => rfl
  | cons a rest =>
    have hlead : leading kind (a :: rest) = (a :: rest).takeWhile fun b => kind b = kind a := by
      rw [List.takeWhile_cons_of_pos (by simp)]
      rfl
    cases hv : select a with
    | none =>
      rw [lookup_stop rfl hv]
      cases hlast : (leading kind (a :: rest)).getLast? with
      | none => rfl
      | some b =>
        have hkind : kind b = kind a := by
          rw [hlead] at hlast
          simpa using List.mem_takeWhile_imp (List.mem_of_getLast? hlast)
        have hb : select b = none := by
          by_contra hsome
          have hsel := (hs b a (Option.ne_none_iff_isSome.mp hsome)).mpr hkind
          rw [hv] at hsel
          cases hsel
        rw [Option.bind_some, hb]
        rfl
    | some v =>
      have hsel : (select a).isSome := by rw [hv, Option.isSome_some]
      rw [hlead]
      apply lookup_takeWhile
      intro b
      rw [Bool.eq_iff_iff, hs a b hsel, decide_eq_true_eq, eq_comm]

theorem lookup_map {γ : Type*} (f : γ → α) (items : List γ) (value : Option β) :
    lookup hit select (items.map f) value = lookup (hit ∘ f) (select ∘ f) items value := by
  induction items generalizing value with
  | nil => rfl
  | cons a rest ih =>
    rw [List.map_cons, lookup, lookup, Function.comp_apply, Function.comp_apply]
    by_cases ha : hit (f a)
    · rw [if_pos ha, if_pos ha]
      cases select (f a) with
      | none => rfl
      | some v => exact ih (some v)
    · rw [if_neg ha, if_neg ha, ih]

end Lookup

end SlotStore
