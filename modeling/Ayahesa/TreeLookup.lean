import Ayahesa.TreeInvariant

/-! # Which put a getter returns

Slot order is not the order of the puts: a put takes the first free slot, so an item of the
same key may lie behind it, and a getter that meets an item of another type gives up. The
latest put of a key is the one returned when neither happens. -/
namespace TreeLookup

open CMemory HttpRequest SlotStore TreeStore TreeInvariant

inductive ValueType where
  | T_NULL
  | T_INT
  | T_FLOAT
  | T_STRING
  | T_POINTER
  deriving DecidableEq, Repr

def type : Value → ValueType
  | .T_NULL => .T_NULL
  | .T_INT _ => .T_INT
  | .T_FLOAT _ => .T_FLOAT
  | .T_STRING _ => .T_STRING
  | .T_POINTER _ => .T_POINTER

/-- The items in front of the slot that the next put takes. -/
def front (tree : Tree) : List Item := (tree.ptr.takeWhile Option.isSome).reduceOption

def behind (tree : Tree) : List Item := (tree.ptr.dropWhile Option.isSome).reduceOption

/-- No item of the key and of another type lies in front of the slot that a put takes, and
the next item of the key behind it, if there is one, has another type. -/
def Undisturbed (tree : Tree) (item : Item) : Prop :=
  (∀ other ∈ front tree, other.key = item.key → type other.value = type item.value) ∧
  ∀ other, (behind tree).find? (·.key = item.key) = some other →
    type other.value ≠ type item.value

/-- The getter of the value's type returns it and the other getters change nothing. -/
def Reads (tree : Tree) (key : Bytes) (value : Value) : Prop :=
  (∀ v, tree_get_int tree key v = .ok ((int? value).or v)) ∧
  (∀ v, tree_get_float tree key v = .ok ((float? value).or v)) ∧
  (∀ v, tree_get_str tree key v = .ok (value.str?.or v)) ∧
  ∀ v, tree_get_ptr tree key v = .ok ((ptr? value).or v)

def Untouched (tree : Tree) (key : Bytes) : Prop :=
  (∀ v, tree_get_int tree key v = .ok v) ∧ (∀ v, tree_get_float tree key v = .ok v) ∧
  (∀ v, tree_get_str tree key v = .ok v) ∧ ∀ v, tree_get_ptr tree key v = .ok v

def Typed {α : Type} (select : Value → Option α) : Prop :=
  ∀ a b, (select a).isSome → ((select b).isSome ↔ type a = type b)

theorem int?_typed : Typed int? := by
  intro a b ha
  cases a <;> cases ha
  cases b <;> simp [int?, type]

theorem float?_typed : Typed float? := by
  intro a b ha
  cases a <;> cases ha
  cases b <;> simp [float?, type]

theorem str?_typed : Typed Value.str? := by
  intro a b ha
  cases a <;> cases ha
  cases b <;> simp [Value.str?, type]

theorem ptr?_typed : Typed ptr? := by
  intro a b ha
  cases a <;> cases ha
  cases b <;> simp [ptr?, type]

def ofKey (tree : Tree) (key : Bytes) : List Item :=
  tree.ptr.reduceOption.filter (·.key = key)

section Getters

variable {α : Type} {select : Value → Option α}

theorem read_sound {tree : Tree} (h : Sound tree) (key : Bytes) (value : Option α) :
    tree_read select key tree.alloc_cnt tree.ptr value =
      .ok (lookup (fun _ => true) (of_item select) (ofKey tree key) value) := by
  rw [← h.length, tree_read_all, tree_get_entries, lookup_filter]
  rfl

theorem read_absent {tree : Tree} (h : Sound tree) {key : Bytes} (hkey : ofKey tree key = [])
    (value : Option α) : tree_read select key tree.alloc_cnt tree.ptr value = .ok value := by
  rw [read_sound h, hkey]
  rfl

/-- An item is read when those of its key in front of it have its type and the next one
behind it has not. -/
theorem read_item {tree : Tree} (h : Sound tree) (hs : Typed select) {key : Bytes}
    {before after : List Item} {item : Item} (hkey : ofKey tree key = before ++ item :: after)
    (hb : ∀ other ∈ before, type other.value = type item.value)
    (ha : ∀ other, after.head? = some other → type other.value ≠ type item.value)
    (value : Option α) :
    tree_read select key tree.alloc_cnt tree.ptr value =
      .ok ((select item.value).or value) := by
  rw [read_sound h, hkey]
  cases hv : select item.value with
  | none =>
    have hrefused : ∀ other ∈ before, of_item select other = none := by
      intro other hother
      by_contra hsome
      have hsel := Option.ne_none_iff_isSome.mp hsome
      have hitem := (hs other.value item.value hsel).mpr (hb other hother)
      rw [hv] at hitem
      cases hitem
    rw [lookup_refused (fun other hother _ => hrefused other hother) rfl hv]
    rfl
  | some v =>
    have hsel : (select item.value).isSome := by rw [hv]; rfl
    have hselected : ∀ other ∈ before, (of_item select other).isSome := by
      intro other hother
      exact (hs item.value other.value hsel).mpr (hb other hother).symm
    rw [lookup_selected (fun other hother _ => hselected other hother) rfl hv]
    cases after with
    | nil => rfl
    | cons other after =>
      have hne : of_item select other = none := by
        by_contra hsome
        have htype := (hs item.value other.value hsel).mp (Option.ne_none_iff_isSome.mp hsome)
        exact ha other rfl htype.symm
      rw [lookup_stop rfl hne]
      rfl

end Getters

theorem untouched_of_absent {tree : Tree} (h : Sound tree) {key : Bytes}
    (hkey : ofKey tree key = []) : Untouched tree key :=
  ⟨read_absent h hkey, read_absent h hkey, read_absent h hkey, read_absent h hkey⟩

/-! ## The items of one key over a run -/

theorem put_places {tree tree' : Tree} {item : Item} (h : Put tree item tree') :
    tree.ptr.reduceOption = front tree ++ behind tree ∧
      tree'.ptr.reduceOption = front tree ++ item :: behind tree := by
  have hsplit : tree.ptr.reduceOption = front tree ++ behind tree := by
    rw [front, behind, ← List.reduceOption_append, List.takeWhile_append_dropWhile]
  refine ⟨hsplit, ?_⟩
  have hsome : ∀ items : List Item, ∀ slot ∈ items.map some, Option.isSome slot = true := by
    intro items slot hslot
    obtain ⟨i, -, rfl⟩ := List.mem_map.mp hslot
    rfl
  cases h with
  | fill items slots hp hlow =>
    have hfront : front tree = items := by
      rw [front, hp, List.takeWhile_append_of_pos (hsome items)]
      simp
    have hbehind : behind tree = slots.reduceOption := by
      rw [behind, hp, List.dropWhile_append_of_pos (hsome items)]
      simp [List.reduceOption_cons_of_none]
    rw [hfront, hbehind, entries_split]
    rfl
  | grow hp hlow =>
    have hall : ∀ slot ∈ tree.ptr, Option.isSome slot = true := by
      rw [hp]
      exact hsome _
    have hfront : front tree = tree.ptr.reduceOption := by
      rw [front, List.takeWhile_eq_self_iff.mpr hall]
    have hbehind : behind tree = [] := by
      rw [behind, List.dropWhile_eq_nil_iff.mpr hall]
      rfl
    have hgrow := entries_grow ([] : List (Option Item)) 9
    rw [List.nil_append, List.reduceOption_nil] at hgrow
    rw [hfront, hbehind, List.reduceOption_append, List.reduceOption_cons_of_some, hgrow]

theorem ofKey_put {tree tree' : Tree} {item : Item} (h : Put tree item tree') :
    ofKey tree' item.key = (front tree).filter (·.key = item.key) ++
      item :: (behind tree).filter (·.key = item.key) := by
  rw [ofKey, (put_places h).2, List.filter_append, List.filter_cons_of_pos (by simp)]

theorem ofKey_step {tree tree' : Tree} {call : Call} (hs : Sound tree)
    (h : step tree call = .ok tree') {key : Bytes} (hkey : call.key ≠ key) :
    ofKey tree' key = ofKey tree key := by
  cases hitem : call.item? with
  | some item =>
    rw [step_put hitem] at h
    obtain ⟨hold, hnew⟩ := put_places (put_inv hs h).1
    have hne : item.key ≠ key := by rwa [item_key hitem]
    rw [ofKey, ofKey, hold, hnew, List.filter_append, List.filter_append,
      List.filter_cons_of_neg (by simpa using hne)]
  | none =>
    rw [step_remove hitem, remove_ok hs] at h
    obtain rfl := Except.ok.inj h
    by_cases hflag : tree.flags &&& T_FLAG_READONLY ≠ 0
    · rw [if_pos hflag]
    · rw [if_neg hflag, ofKey, ofKey, entries_clear, List.filter_filter]
      apply List.filter_congr
      intro item _
      by_cases hi : item.key = key
      · simp [hi, hkey.symm]
      · simp [hi]

theorem ofKey_run {tree tree' : Tree} {calls : List Call} (hs : Sound tree)
    (h : run tree calls = .ok tree') {key : Bytes} (hkey : ∀ call ∈ calls, call.key ≠ key) :
    Sound tree' ∧ ofKey tree' key = ofKey tree key := by
  induction calls using List.reverseRecOn generalizing tree' with
  | nil =>
    obtain rfl := Except.ok.inj h
    exact ⟨hs, rfl⟩
  | append_singleton calls call ih =>
    rw [run_concat] at h
    obtain ⟨middle, hrun, hstep⟩ := bind_ok h
    obtain ⟨hsound, heq⟩ := ih hrun fun c hc => hkey c (List.mem_append_left _ hc)
    have hcall := hkey call (List.mem_append_right _ List.mem_cons_self)
    exact ⟨(step_sound hsound hstep).1, (ofKey_step hsound hstep hcall).trans heq⟩

theorem put_of_mem {flags : UInt8} (hflags : flags &&& T_FLAG_READONLY = 0) {calls : List Call}
    {item : Item} (h : item ∈ evolved flags calls) :
    ∃ past call rest, calls = past ++ call :: rest ∧ call.item? = some item ∧
      .tree_remove item.key ∉ rest := by
  induction calls using List.reverseRecOn with
  | nil => cases Multiset.notMem_zero item h
  | append_singleton calls call ih =>
    have extend : item ∈ evolved flags calls → call ≠ .tree_remove item.key →
        ∃ past c rest, calls ++ [call] = past ++ c :: rest ∧ c.item? = some item ∧
          .tree_remove item.key ∉ rest := by
      intro hmem hne
      obtain ⟨past, c, rest, rfl, hc, hrest⟩ := ih hmem
      refine ⟨past, c, rest ++ [call], by simp, hc, ?_⟩
      rw [List.mem_append, List.mem_singleton]
      rintro (hr | hr)
      · exact hrest hr
      · exact hne hr.symm
    rw [evolved_concat, evolve] at h
    cases hitem : call.item? with
    | some new =>
      simp only [hitem, Multiset.mem_cons] at h
      rcases h with rfl | hmem
      · exact ⟨calls, call, [], rfl, hitem, List.not_mem_nil⟩
      · exact extend hmem fun heq => by rw [heq] at hitem; cases hitem
    | none =>
      simp only [hitem, hflags, ne_eq, not_true_eq_false, if_false, Multiset.mem_filter] at h
      exact extend h.1 fun heq => h.2 (by rw [heq]; rfl)

theorem latest_put_wins {flags : UInt8} (hflags : flags &&& T_FLAG_READONLY = 0)
    {calls : List Call} {tree : Tree} (hrun : run (fresh flags) calls = .ok tree)
    (key : Bytes) :
    ((∀ past call rest, calls = past ++ call :: rest → call.item?.isSome → call.key = key →
        .tree_remove key ∈ rest) → Untouched tree key) ∧
    ∀ past call rest item before, calls = past ++ call :: rest → call.item? = some item →
      item.key = key → (∀ c ∈ rest, c.key ≠ key) → run (fresh flags) past = .ok before →
      Undisturbed before item → Reads tree key item.value := by
  obtain ⟨hsound, -, hitems⟩ := run_sound flags hrun
  constructor
  · intro hremoved
    apply untouched_of_absent hsound
    apply List.filter_eq_nil_iff.mpr
    rintro item hmem hkey
    obtain rfl : item.key = key := by simpa using hkey
    rw [← Multiset.mem_coe, hitems] at hmem
    obtain ⟨past, call, rest, hcalls, hitem, hrest⟩ := put_of_mem hflags hmem
    exact hrest (hremoved past call rest hcalls (by rw [hitem]; rfl) (item_key hitem).symm)
  · rintro past call rest item before rfl hitem rfl hrest hbefore ⟨hfront, hbehind⟩
    obtain ⟨hs, -, -⟩ := run_sound flags hbefore
    rw [run_append, hbefore] at hrun
    change run before (call :: rest) = .ok tree at hrun
    rw [run_cons, step_put hitem] at hrun
    obtain ⟨after, hput, hlater⟩ := bind_ok hrun
    have hPut := (put_inv hs hput).1
    obtain ⟨-, hkept⟩ := ofKey_run (hPut.sound hs) hlater hrest
    have hkey := hkept.trans (ofKey_put hPut)
    have hb : ∀ other ∈ (front before).filter (·.key = item.key),
        type other.value = type item.value := by
      intro other hother
      obtain ⟨hmem, hk⟩ := List.mem_filter.mp hother
      exact hfront other hmem (by simpa using hk)
    have ha : ∀ other, ((behind before).filter (·.key = item.key)).head? = some other →
        type other.value ≠ type item.value := by
      intro other hother
      rw [List.head?_filter] at hother
      exact hbehind other hother
    exact ⟨read_item hsound int?_typed hkey hb ha, read_item hsound float?_typed hkey hb ha,
      read_item hsound str?_typed hkey hb ha, read_item hsound ptr?_typed hkey hb ha⟩

/-- The second put of the key lands in a freed slot behind the first one. -/
theorem latest_put_wins_after_refill :
    ∃ tree, run (fresh 0) [.tree_put_int (bytes "k") 1, .tree_put_str (bytes "a") (bytes "v"),
        .tree_remove (bytes "a"), .tree_put_int (bytes "k") 2] = .ok tree ∧
      Reads tree (bytes "k") (.T_INT 2) := by
  have hflags : (0 : UInt8) &&& T_FLAG_READONLY = 0 := rfl
  refine ⟨_, rfl, (latest_put_wins hflags rfl (bytes "k")).2
    [.tree_put_int (bytes "k") 1, .tree_put_str (bytes "a") (bytes "v"),
      .tree_remove (bytes "a")]
    (.tree_put_int (bytes "k") 2) [] ⟨bytes "k", .T_INT 2⟩ _ rfl rfl rfl ?_ rfl ?_⟩
  · intro c hc
    cases hc
  · refine ⟨by decide, fun other h => ?_⟩
    cases h

/-- A put of another type, and a put into a slot that a removal freed, are not returned. -/
theorem later_puts_hidden :
    (∃ tree, run (fresh 0) [.tree_put_int (bytes "k") 1,
        .tree_put_str (bytes "k") (bytes "v")] = .ok tree ∧
      ¬Reads tree (bytes "k") (.T_STRING (bytes "v"))) ∧
    ∃ tree, run (fresh 0) [.tree_put_int (bytes "a") 0, .tree_put_int (bytes "k") 1,
        .tree_remove (bytes "a"), .tree_put_int (bytes "k") 2] = .ok tree ∧
      ¬Reads tree (bytes "k") (.T_INT 2) := by
  refine ⟨⟨_, rfl, fun h => ?_⟩, ⟨_, rfl, fun h => ?_⟩⟩
  · exact absurd (h.2.2.1 none) (by decide)
  · exact absurd (h.1 none) (by decide)

end TreeLookup
