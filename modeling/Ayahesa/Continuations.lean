import Mathlib.Algebra.GroupWithZero.Nat
import Ayahesa.ConfigLoading
import Ayahesa.SectionInterference

/-! # Values that go on over several lines

The parser hands on each continuation line as a further setting of the name that it remembers,
and the configuration answers with one of them. -/
namespace Continuations

open CMemory CompatStrings SlotStore TreeStore TreeInvariant AppConfig ConfigOverride ConfigQueries
  IniParser IniLines IniCalls AppStart ConfigLoading
open HttpRequest (Value Item)
open SectionInterference (qualified_debug)

/-! ## The setting that is in force -/

def Numbers (key : Bytes) (s : Setting) : Prop :=
  (s.name = bytes "debug" ∧ key = bytes "debug") ∨
    (s.sect = bytes "app" ∧ s.name = bytes "session" ∧ key = bytes "app.session")

instance (key : Bytes) (s : Setting) : Decidable (Numbers key s) :=
  inferInstanceAs (Decidable (_ ∨ _))

/-- The settings of a key that a query for a text passes; it stops at the first number. -/
def passed (key : Bytes) (settings : List Setting) : List Setting :=
  (settings.filter fun s => Sets key s ∨ Numbers key s).takeWhile fun s => Sets key s

/-- The setting whose value a query for a text returns. -/
def in_force (key : Bytes) (settings : List Setting) : Option Setting :=
  (passed key settings).getLast?

section InForce

variable {kore_strtonum : Strtonum} {key : Bytes}

theorem stored_number {s : Setting} (h : Numbers key s) :
    ∃ n, stored kore_strtonum s = some ⟨key, .T_INT n⟩ := by
  rcases h with ⟨hname, rfl⟩ | ⟨hsect, hname, rfl⟩
  · exact ⟨_, by rw [stored, if_pos hname]⟩
  · have hdebug : s.name ≠ bytes "debug" := by
      rw [hname]
      decide
    exact ⟨_, by rw [stored, if_neg hdebug, if_pos ⟨hsect, hname⟩]⟩

theorem stored_elsewhere {s : Setting} (hsets : ¬Sets key s) (hnumber : ¬Numbers key s)
    {item : Item} (hs : stored kore_strtonum s = some item) : item.key ≠ key := by
  unfold stored at hs
  by_cases hd : s.name = bytes "debug"
  · rw [if_pos hd] at hs
    obtain rfl := Option.some.inj hs
    exact fun hkey => hnumber (Or.inl ⟨hd, hkey.symm⟩)
  rw [if_neg hd] at hs
  by_cases ht : s.sect = bytes "app" ∧ s.name = bytes "session"
  · rw [if_pos ht] at hs
    obtain rfl := Option.some.inj hs
    exact fun hkey => hnumber (Or.inr ⟨ht.1, ht.2, hkey.symm⟩)
  rw [if_neg ht] at hs
  by_cases hi : s.name = bytes "instance"
  · rw [if_pos hi] at hs
    cases hs
  rw [if_neg hi] at hs
  obtain rfl := Option.some.inj hs
  exact fun hkey => hsets ⟨hd, hi, ht, hkey⟩

theorem passed_values (settings : List Setting) :
    (values (settings.filterMap (stored kore_strtonum)) key).takeWhile
        (fun v => v.str?.isSome) =
      (passed key settings).map fun s => .T_STRING s.value := by
  induction settings with
  | nil => rfl
  | cons s settings ih =>
    by_cases hsets : Sets key s
    · have hpassed : passed key (s :: settings) = s :: passed key settings := by
        simp [passed, hsets]
      have hvalues : values ((s :: settings).filterMap (stored kore_strtonum)) key =
          .T_STRING s.value :: values (settings.filterMap (stored kore_strtonum)) key := by
        rw [List.filterMap_cons_some (stored_sets hsets)]
        simp [values]
      rw [hpassed, hvalues, List.takeWhile_cons_of_pos rfl, ih, List.map_cons]
    by_cases hnumber : Numbers key s
    · obtain ⟨n, hn⟩ := @stored_number kore_strtonum key s hnumber
      have hpassed : passed key (s :: settings) = [] := by simp [passed, hsets, hnumber]
      have hvalues : values ((s :: settings).filterMap (stored kore_strtonum)) key =
          .T_INT n :: values (settings.filterMap (stored kore_strtonum)) key := by
        rw [List.filterMap_cons_some hn]
        simp [values]
      rw [hpassed, hvalues, List.takeWhile_cons_of_neg (by simp [Value.str?])]
      rfl
    · have hpassed : passed key (s :: settings) = passed key settings := by
        simp [passed, hsets, hnumber]
      rw [hpassed, ← ih]
      cases hs : stored kore_strtonum s with
      | none => rw [List.filterMap_cons_none hs]
      | some item =>
        have hne := stored_elsewhere hsets hnumber hs
        rw [List.filterMap_cons_some hs]
        simp [values, hne]

theorem passed_defaulted (settings : List Setting) :
    (values (defaulted (settings.filterMap (stored kore_strtonum))) key).takeWhile
        (fun v => v.str?.isSome) =
      (passed key settings).map fun s => .T_STRING s.value := by
  by_cases hdebug : key = bytes "debug"
  · rw [← @passed_values kore_strtonum, defaulted]
    split
    · rfl
    · next hnone =>
      have hempty : values (settings.filterMap (stored kore_strtonum)) key = [] := by
        rw [values, List.map_eq_nil_iff, List.filter_eq_nil_iff]
        intro item hitem hkey
        exact hnone ⟨item, hitem, (of_decide_eq_true hkey).trans hdebug⟩
      have hdefault : values [⟨bytes "debug", .T_INT 0⟩] key = [.T_INT 0] := by
        rw [hdebug]
        rfl
      rw [values_append, hempty, hdefault]
      rfl
  · rw [← @passed_values kore_strtonum, values, defaulted_filter _ hdebug]
    rfl

theorem config_get_str_in_force {app : App} {settings : List Setting}
    (h : Packed app.config (defaulted (settings.filterMap (stored kore_strtonum)))) :
    config_get_str app key none = .ok ((in_force key settings).map Setting.value) := by
  have hread := read_values Value.str? h key none
  have htake := @lookup_takeWhile _ _ Value.str? (fun v => v.str?.isSome) (fun _ => rfl)
    (values (defaulted (settings.filterMap (stored kore_strtonum))) key) none
  rw [htake, passed_defaulted, List.getLast?_map] at hread
  rw [config_get_str, tree_get_str, hread, in_force]
  cases (passed key settings).getLast? <;> rfl

theorem in_force_spec {settings : List Setting} {t : Setting}
    (h : in_force key settings = some t) : t ∈ settings ∧ Sets key t := by
  have hmem := List.mem_of_getLast? h
  refine ⟨List.mem_of_mem_filter ((List.takeWhile_prefix _).subset hmem), ?_⟩
  simpa using List.mem_takeWhile_imp hmem

end InForce

/-! ## The settings of a part of a file -/

def state_behind (st : IniState) (lineno : ℕ) : List Bytes → IniState
  | [] => st
  | line :: rest =>
    state_behind (next_state st (kind_of (lineno + 1) st.prev_name (c_string line))) (lineno + 1)
      rest

theorem settings_before_append (st : IniState) (lineno : ℕ) (front behind : List Bytes) :
    settings_before st lineno (front ++ behind) =
      settings_before st lineno front ++
        if first_malformed st lineno front = none then
          settings_before (state_behind st lineno front) (lineno + front.length) behind
        else [] := by
  induction front generalizing st lineno with
  | nil => rfl
  | cons line rest ih =>
    obtain ⟨kind, hkind⟩ : ∃ kind, kind = kind_of (lineno + 1) st.prev_name (c_string line) :=
      ⟨_, rfl⟩
    rw [List.cons_append, settings_before, settings_before, first_malformed, state_behind, ← hkind]
    by_cases hbad : kind = .malformed
    · simp [hbad]
    · simp only [if_neg hbad]
      rw [ih, List.append_assoc, List.length_cons, Nat.add_right_comm, Nat.add_assoc]

theorem settings_before_lineno {st : IniState} {lineno : ℕ} {lines : List Bytes} {s : Setting}
    (h : s ∈ settings_before st lineno lines) :
    lineno < s.lineno ∧ s.lineno ≤ lineno + lines.length := by
  induction lines generalizing st lineno with
  | nil => cases h
  | cons line rest ih =>
    rw [settings_before] at h
    split at h
    · cases h
    · rw [List.length_cons]
      rcases List.mem_append.mp h with hcall | hrest
      · have hlineno : s.lineno = lineno + 1 := by
          cases hkind : kind_of (lineno + 1) st.prev_name (c_string line) with
          | skip | header sect | malformed =>
            rw [hkind] at hcall
            cases hcall
          | more value =>
            rw [hkind] at hcall
            rw [List.mem_singleton.mp hcall]
          | pair name value =>
            rw [hkind] at hcall
            rw [List.mem_singleton.mp hcall]
        omega
      · have := ih hrest
        omega

/-- An indented line with a text that is no comment. -/
def Continues (line : Bytes) : Prop :=
  0 < leading (c_string line) ∧
    ∃ c rest, trimmed (c_string line) = c :: rest ∧ c ≠ 59 ∧ c ≠ 35

def part_of (line : Bytes) : Bytes := trimmed (c_string line)

theorem Continues.part_ne_nil {line : Bytes} (h : Continues line) : part_of line ≠ [] := by
  obtain ⟨-, c, rest, hpart, -, -⟩ := h
  rw [part_of, hpart]
  exact List.cons_ne_nil c rest

theorem continues_kind {line : Bytes} (h : Continues line) {st : IniState}
    (hprev : st.prev_name ≠ []) {lineno : ℕ} (hlater : lineno ≠ 1) :
    kind_of lineno st.prev_name (c_string line) = .more (part_of line) := by
  obtain ⟨hindent, c, rest, hpart, hsemi, hhash⟩ := h
  have hmark : marked lineno (c_string line) = 0 := if_neg fun hfirst => hlater hfirst.1
  have hcomment : ¬(c = 59 ∨ c = 35) := fun hc => hc.elim hsemi hhash
  simp only [kind_of, hmark, List.drop_zero, Nat.zero_add, hpart, line_kind, if_neg hcomment,
    part_of]
  rw [if_pos ⟨hprev, decide_eq_true hindent⟩]

/-- The settings of continuation lines: none of them is lost, and none has a name of its own. -/
def continued (st : IniState) (lineno : ℕ) : List Bytes → List Setting
  | [] => []
  | line :: rest =>
    ⟨st.sect, st.prev_name, part_of line, lineno + 1⟩ :: continued st (lineno + 1) rest

theorem settings_continued {conts : List Bytes} (h : ∀ line ∈ conts, Continues line)
    {st : IniState} (hprev : st.prev_name ≠ []) {lineno : ℕ} (hlineno : 1 ≤ lineno)
    (behind : List Bytes) :
    settings_before st lineno (conts ++ behind) =
      continued st lineno conts ++ settings_before st (lineno + conts.length) behind := by
  induction conts generalizing lineno with
  | nil => rfl
  | cons line conts ih =>
    have hkind := continues_kind (h line List.mem_cons_self) hprev
      (Nat.ne_of_gt (Nat.lt_succ_of_le hlineno))
    have ih := ih (fun l hl => h l (List.mem_cons_of_mem line hl)) (Nat.le_succ_of_le hlineno)
    rw [List.cons_append, settings_before, hkind, if_neg (by simp), continued, List.cons_append,
      List.length_cons]
    have hnext : next_state st (.more (part_of line)) = st := rfl
    rw [hnext, ih, Nat.succ_add_eq_add_succ]
    rfl

theorem mem_continued {conts : List Bytes} {st : IniState} {lineno : ℕ} {s : Setting}
    (h : s ∈ continued st lineno conts) :
    s.sect = st.sect ∧ s.name = st.prev_name ∧ (∃ line ∈ conts, s.value = part_of line) ∧
      lineno < s.lineno ∧ s.lineno ≤ lineno + conts.length := by
  induction conts generalizing lineno with
  | nil => cases h
  | cons line conts ih =>
    rw [List.length_cons]
    rcases List.mem_cons.mp h with rfl | h
    · exact ⟨rfl, rfl, ⟨line, List.mem_cons_self, rfl⟩, Nat.lt_succ_self lineno,
        Nat.add_le_add_left (Nat.le_add_left 1 _) lineno⟩
    · obtain ⟨hsect, hname, ⟨l, hl, hvalue⟩, hlow, hhigh⟩ := ih h
      exact ⟨hsect, hname, ⟨l, List.mem_cons_of_mem line hl, hvalue⟩, by omega, by omega⟩

/-! ## A value over several lines -/

def Contains (value : Bytes) : List Bytes → Prop
  | [] => True
  | part :: parts => ∃ front rest, value = front ++ (part ++ rest) ∧ Contains rest parts

theorem Contains.length_le {value : Bytes} {parts : List Bytes} (h : Contains value parts) :
    (parts.map List.length).sum ≤ value.length := by
  induction parts generalizing value with
  | nil => exact Nat.zero_le _
  | cons part parts ih =>
    obtain ⟨front, rest, rfl, hrest⟩ := h
    have := ih hrest
    rw [List.map_cons, List.sum_cons, List.length_append, List.length_append]
    omega

/-- Parts that are not empty need more room than one of them has, unless it is the only one. -/
theorem parts_longer {conts : List Bytes} (h : ∀ line ∈ conts, Continues line) {line : Bytes}
    (hmem : line ∈ conts) :
    (part_of line).length + conts.length ≤
      ((conts.map part_of).map List.length).sum + 1 := by
  have hpos : ∀ {l}, l ∈ conts → 1 ≤ (part_of l).length := fun hl =>
    List.length_pos_of_ne_nil (h _ hl).part_ne_nil
  obtain ⟨front, behind, rfl⟩ := List.append_of_mem hmem
  have hsum : ∀ ls : List Bytes, (∀ l ∈ ls, 1 ≤ (part_of l).length) →
      ls.length ≤ ((ls.map part_of).map List.length).sum := by
    intro ls hls
    induction ls with
    | nil => exact Nat.le_refl 0
    | cons l ls ih =>
      have hl := hls l List.mem_cons_self
      have := ih fun k hk => hls k (List.mem_cons_of_mem l hk)
      rw [List.map_cons, List.map_cons, List.sum_cons, List.length_cons]
      omega
  have hfront := hsum front fun l hl => hpos (List.mem_append_left _ hl)
  have hbehind := hsum behind fun l hl =>
    hpos (List.mem_append_right _ (List.mem_cons_of_mem line hl))
  simp only [List.map_append, List.map_cons, List.sum_append, List.sum_cons, List.length_append,
    List.length_cons]
  omega

/-- The lines of a setting, between the rest of those that are read from its file. -/
structure Placed (file : Bytes) (before : List Bytes) (line : Bytes) (conts after : List Bytes)
    (name v₀ : Bytes) : Prop where
  lines : fgets_lines file = before ++ line :: (conts ++ after)
  setting : kind_of (before.length + 1) (state_behind ⟨[], []⟩ 0 before).prev_name
    (c_string line) = .pair name v₀
  named : name ≠ []
  many : conts ≠ []
  continues : ∀ l ∈ conts, Continues l

def section_behind (before : List Bytes) : Bytes := (state_behind ⟨[], []⟩ 0 before).sect

/-- The key answers with all parts of the value, and nothing of them is stored elsewhere. -/
structure Extended (kore_strtonum : Strtonum) (app : App) (file key : Bytes) (first : ℕ)
    (conts : List Bytes) (v₀ : Bytes) : Prop where
  found : ∃ value, config_get_str app key none = .ok (some value) ∧
    Contains value (v₀ :: conts.map part_of)
  kept : ∀ s ∈ read_settings file, first ≤ s.lineno → s.lineno ≤ first + conts.length →
    ∀ item, stored kore_strtonum s = some item → item.key = key

theorem read_settings_placed {file line name v₀ : Bytes} {before conts after : List Bytes}
    (h : Placed file before line conts after name v₀) :
    read_settings file = settings_before ⟨[], []⟩ 0 before ++
      if first_malformed ⟨[], []⟩ 0 before = none then
        (⟨section_behind before, name, v₀, before.length + 1⟩ ::
          continued ⟨section_behind before, name.take (MAX_NAME - 1)⟩ (before.length + 1) conts) ++
          settings_before ⟨section_behind before, name.take (MAX_NAME - 1)⟩
            (before.length + 1 + conts.length) after
      else [] := by
  have hshort : name.take (MAX_NAME - 1) ≠ [] := by
    obtain ⟨c, rest, hname⟩ := List.exists_cons_of_ne_nil h.named
    rw [hname]
    exact List.cons_ne_nil c _
  have hconts := @settings_continued conts h.continues
    ⟨section_behind before, name.take (MAX_NAME - 1)⟩ hshort (before.length + 1)
    (Nat.le_add_left 1 _) after
  rw [read_settings, h.lines, settings_before_append, Nat.zero_add]
  congr 2
  rw [settings_before, h.setting, if_neg (by simp), next_state]
  exact congrArg (List.cons _) hconts

theorem qualified_inj {sect a b : Bytes} (h : qualified sect a = qualified sect b) : a = b := by
  unfold qualified at h
  split at h
  · exact List.append_cancel_left h
  · exact h

theorem stored_key {kore_strtonum : Strtonum} {s : Setting} {item : Item}
    (hdebug : s.name ≠ bytes "debug") (h : stored kore_strtonum s = some item) :
    item.key = qualified s.sect s.name := by
  rw [stored, if_neg hdebug] at h
  split at h
  · next hsession =>
    have hsession_key : bytes "app.session" = qualified (bytes "app") (bytes "session") := by
      decide
    rw [← Option.some.inj h, hsession.1, hsession.2]
    exact hsession_key
  · split at h
    · cases h
    · rw [← Option.some.inj h]

def first_setting (before : List Bytes) (name v₀ : Bytes) : Setting :=
  ⟨section_behind before, name, v₀, before.length + 1⟩

section Placed

variable {kore_strtonum : Strtonum} {file line name v₀ : Bytes} {before conts after : List Bytes}
  {s : Setting}

theorem Placed.cases (h : Placed file before line conts after name v₀)
    (hs : s ∈ read_settings file) :
    (s.lineno ≤ before.length ∨ before.length + 1 + conts.length < s.lineno) ∨
      (first_malformed ⟨[], []⟩ 0 before = none ∧ (s = first_setting before name v₀ ∨
        (s.sect = section_behind before ∧ s.name = name.take 49 ∧
          (∃ l ∈ conts, s.value = part_of l) ∧ before.length + 1 < s.lineno ∧
          s.lineno ≤ before.length + 1 + conts.length))) := by
  rw [read_settings_placed h] at hs
  rcases List.mem_append.mp hs with hfront | hrest
  · have := (settings_before_lineno hfront).2
    exact Or.inl (Or.inl (by omega))
  · split at hrest
    · next hgood =>
      rcases List.mem_append.mp hrest with hgroup | hbehind
      · rcases List.mem_cons.mp hgroup with hfirst | hcont
        · exact Or.inr ⟨hgood, Or.inl hfirst⟩
        · exact Or.inr ⟨hgood, Or.inr (mem_continued hcont)⟩
      · exact Or.inl (Or.inr (settings_before_lineno hbehind).1)
    · cases hrest

theorem Placed.mem (h : Placed file before line conts after name v₀)
    (hgood : first_malformed ⟨[], []⟩ 0 before = none) :
    first_setting before name v₀ ∈ read_settings file ∧
      ∃ value, ⟨section_behind before, name.take 49, value, before.length + 2⟩ ∈
        read_settings file := by
  obtain ⟨l, rest, hconts⟩ := List.exists_cons_of_ne_nil h.many
  rw [read_settings_placed h, if_pos hgood, hconts]
  refine ⟨List.mem_append_right _ List.mem_cons_self, part_of l, ?_⟩
  exact List.mem_append_right _ (List.mem_cons_of_mem _ List.mem_cons_self)

/-- Under a short name that is not special, all lines stay under the key of the setting. -/
theorem Placed.kept (h : Placed file before line conts after name v₀)
    (hname : first_malformed ⟨[], []⟩ 0 before = none → name.length ≤ 49 ∧ name ≠ bytes "debug")
    (hs : s ∈ read_settings file) (hlow : before.length + 1 ≤ s.lineno)
    (hhigh : s.lineno ≤ before.length + 1 + conts.length) {item : Item}
    (hitem : stored kore_strtonum s = some item) :
    item.key = qualified (section_behind before) name := by
  rcases h.cases hs with houtside | ⟨hgood, hinside⟩
  · omega
  · obtain ⟨hshort, hdebug⟩ := hname hgood
    obtain ⟨hsect, hsame⟩ : s.sect = section_behind before ∧ s.name = name := by
      rcases hinside with rfl | ⟨hsect, hcut, -⟩
      · exact ⟨rfl, rfl⟩
      · exact ⟨hsect, by rw [hcut, List.take_of_length_le hshort]⟩
    rw [stored_key (hsame ▸ hdebug) hitem, hsect, hsame]

theorem Placed.short (h : Placed file before line conts after name v₀) {app : App}
    (hext : Extended kore_strtonum app file (qualified (section_behind before) name)
      (before.length + 1) conts v₀)
    (hgood : first_malformed ⟨[], []⟩ 0 before = none) : name.length ≤ 49 := by
  obtain ⟨-, part, hpart⟩ := h.mem hgood
  have hpositive : 1 ≤ conts.length := List.length_pos_of_ne_nil h.many
  by_contra hlong
  have hlen : (name.take 49).length = 49 := List.length_take_of_le (by omega)
  have hspecial : ∀ special : Bytes, special.length < 49 → name.take 49 ≠ special := by
    rintro special hspecial rfl
    omega
  have hstored : stored kore_strtonum
      ⟨section_behind before, name.take 49, part, before.length + 2⟩ ≠ none := fun hnone =>
    hspecial (bytes "instance") (by decide) (stored_eq_none_iff.mp hnone)
  obtain ⟨item, hitem⟩ := Option.ne_none_iff_exists'.mp hstored
  have hstays := hext.kept _ hpart (Nat.le_succ _) (by dsimp only; omega) item hitem
  rw [stored_key (hspecial (bytes "debug") (by decide)) hitem] at hstays
  have hcut : name.take 49 = name := qualified_inj hstays
  rw [hcut] at hlen
  omega

theorem Placed.not_debug (h : Placed file before line conts after name v₀) {app : App}
    (hext : Extended kore_strtonum app file (qualified (section_behind before) name)
      (before.length + 1) conts v₀)
    (hgood : first_malformed ⟨[], []⟩ 0 before = none)
    (hsets : Sets (qualified (section_behind before) name) s) : name ≠ bytes "debug" := by
  rintro rfl
  obtain ⟨hfirst, -⟩ := h.mem hgood
  have hstays := hext.kept _ hfirst (Nat.le_refl _) (Nat.le_add_right _ _) _ (if_pos rfl)
  have hdebug := hsets.2.2.2
  rw [← hstays] at hdebug
  exact hsets.1 (qualified_debug hdebug)

end Placed

/-- An empty value with a single continuation, which answers for the key. -/
structure Lone (file key name v₀ : Bytes) (before conts : List Bytes) : Prop where
  empty : v₀ = []
  single : conts.length = 1
  short : name.length ≤ 49
  answers : ∃ t, in_force key (read_settings file) = some t ∧ t.lineno = before.length + 2

/-- A setting on another line answers for the key, and says the same. -/
structure Elsewhere (file key name v₀ : Bytes) (before conts : List Bytes) : Prop where
  answers : ∃ t, in_force key (read_settings file) = some t ∧
    (t.lineno ≤ before.length ∨ before.length + 1 + conts.length < t.lineno) ∧
    Contains t.value (v₀ :: conts.map part_of)
  same_key : first_malformed ⟨[], []⟩ 0 before = none → name.length ≤ 49 ∧ name ≠ bytes "debug"

section Answers

variable {kore_strtonum : Strtonum} {file line name v₀ key : Bytes}
  {before conts after : List Bytes} {app : App} {s : Setting}

/-- A value of the lines that holds all parts is the one continuation of an empty value. -/
theorem lone_of_extended (h : Placed file before line conts after name v₀)
    (hforce : in_force (qualified (section_behind before) name) (read_settings file) = some s)
    (hlow : before.length < s.lineno) (hhigh : s.lineno ≤ before.length + 1 + conts.length)
    (hall : Contains s.value (v₀ :: conts.map part_of)) :
    Lone file (qualified (section_behind before) name) name v₀ before conts := by
  obtain ⟨hmem, hsets⟩ := in_force_spec hforce
  have hpositive : 1 ≤ conts.length := List.length_pos_of_ne_nil h.many
  have hroom := hall.length_le
  rw [List.map_cons, List.sum_cons] at hroom
  rcases h.cases hmem with houtside | ⟨-, rfl | ⟨hsect, hname, ⟨l, hl, htext⟩, hbehind, -⟩⟩
  · omega
  · obtain ⟨l, hl⟩ := List.exists_mem_of_ne_nil conts h.many
    have hlong := parts_longer h.continues hl
    have hpart := List.length_pos_of_ne_nil (h.continues l hl).part_ne_nil
    simp only [first_setting] at hroom
    omega
  · have hlong := parts_longer h.continues hl
    rw [htext] at hroom
    have hcut : name.take 49 = name := by
      have hqualified := hsets.2.2.2
      rw [hsect, hname] at hqualified
      exact qualified_inj hqualified
    refine ⟨List.eq_nil_of_length_eq_zero (by omega), by omega, ?_, s, hforce, by omega⟩
    rw [← hcut]
    exact List.length_take_le 49 name

theorem extended_of_lone (h : Placed file before line conts after name v₀)
    (hget : config_get_str app (qualified (section_behind before) name) none =
      .ok ((in_force (qualified (section_behind before) name) (read_settings file)).map
        Setting.value))
    (hlone : Lone file (qualified (section_behind before) name) name v₀ before conts) :
    Extended kore_strtonum app file (qualified (section_behind before) name) (before.length + 1)
      conts v₀ := by
  obtain ⟨rfl, hsingle, hshort, t, ht, hlineno⟩ := hlone
  obtain ⟨hmem, hsets⟩ := in_force_spec ht
  obtain ⟨l, hconts⟩ := List.length_eq_one_iff.mp hsingle
  rcases h.cases hmem with houtside | ⟨-, rfl | ⟨-, hname, ⟨l', hl', htext⟩, -⟩⟩
  · omega
  · simp only [first_setting] at hlineno
    omega
  · rw [hconts, List.mem_singleton] at hl'
    refine ⟨⟨t.value, by rw [hget, ht]; rfl, ?_⟩, fun s hs hlow hhigh item hitem => ?_⟩
    · rw [htext, hl', hconts]
      exact ⟨[], part_of l, rfl, [], [], by simp, trivial⟩
    · refine h.kept (fun _ => ⟨hshort, ?_⟩) hs hlow hhigh hitem
      rw [← List.take_of_length_le hshort, ← hname]
      exact hsets.1

end Answers

/-- A value goes on over continuation lines if and only if it starts empty and there is one such
line under a short name, or if another line happens to say all of it. -/
theorem continuation_extends_iff (kore_strtonum : Strtonum) (null_text : Option Bytes)
    (instance_id configfile file log : Bytes) (app : App) (before conts after : List Bytes)
    (line name v₀ : Bytes) (h : Placed file before line conts after name v₀)
    (hconfig : application_config kore_strtonum null_text (application_create instance_id)
      configfile (some file) = .ok (app, log)) :
    Extended kore_strtonum app file (qualified (section_behind before) name) (before.length + 1)
        conts v₀ ↔
      Lone file (qualified (section_behind before) name) name v₀ before conts ∨
        Elsewhere file (qualified (section_behind before) name) name v₀ before conts := by
  have hget := @config_get_str_in_force kore_strtonum
    (qualified (section_behind before) name) app (read_settings file)
    (application_config_inv hconfig).2.1
  constructor
  · intro hext
    obtain ⟨value, hvalue, hall⟩ := hext.found
    rw [hget] at hvalue
    obtain ⟨t, ht, rfl⟩ := Option.map_eq_some_iff.mp (Except.ok.inj hvalue)
    by_cases hinside : before.length < t.lineno ∧ t.lineno ≤ before.length + 1 + conts.length
    · exact Or.inl (lone_of_extended h ht hinside.1 hinside.2 hall)
    · refine Or.inr ⟨⟨t, ht, by omega, hall⟩, fun hgood => ⟨h.short hext hgood, ?_⟩⟩
      exact h.not_debug hext hgood (in_force_spec ht).2
  · rintro (hlone | ⟨⟨t, ht, -, hall⟩, hsame⟩)
    · exact extended_of_lone h hget hlone
    · refine ⟨⟨t.value, by rw [hget, ht]; rfl, hall⟩, fun s hs hlow hhigh item hitem => ?_⟩
      exact h.kept hsame hs hlow hhigh hitem

def server_lines : List Bytes :=
  [bytes "storage=s\n", bytes "[app]\n", bytes "name=n\n", bytes "env=e\n", bytes "key=QQ==\n",
    bytes "[mail]\n"]

def mail_file (line cont : Bytes) : Bytes := server_lines.flatten ++ (line ++ cont)

theorem indented_host : Continues (bytes "  h1\n") :=
  ⟨by decide, 104, bytes "1", by decide, by decide, by decide⟩

theorem continuation_extends_iff_empty :
    ∃ app log, application_config no_number none (application_create (bytes "ab-CDEFGH"))
        (bytes "framework.ini") (some (mail_file (bytes "host=\n") (bytes "  h1\n"))) =
          .ok (app, log) ∧
      Extended no_number app (mail_file (bytes "host=\n") (bytes "  h1\n"))
        (qualified (section_behind server_lines) (bytes "host")) 7 [bytes "  h1\n"] [] := by
  have hok : (application_config no_number none (application_create (bytes "ab-CDEFGH"))
    (bytes "framework.ini") (some (mail_file (bytes "host=\n") (bytes "  h1\n")))).isOk := by
    decide
  obtain ⟨⟨app, log⟩, hconfig⟩ := ok_of_isOk hok
  have hplaced : Placed (mail_file (bytes "host=\n") (bytes "  h1\n")) server_lines
      (bytes "host=\n") [bytes "  h1\n"] [] (bytes "host") [] :=
    ⟨by decide, by decide, by decide, by decide, by
      intro l hl
      rw [List.mem_singleton.mp hl]
      exact indented_host⟩
  refine ⟨app, log, hconfig, ?_⟩
  exact (continuation_extends_iff no_number none (bytes "ab-CDEFGH") (bytes "framework.ini")
    (mail_file (bytes "host=\n") (bytes "  h1\n")) log app server_lines [bytes "  h1\n"] []
    (bytes "host=\n") (bytes "host") [] hplaced hconfig).mpr (Or.inl ⟨rfl, rfl, by decide,
      ⟨bytes "mail", bytes "host", bytes "h1", 8⟩, by decide, rfl⟩)

/-- Only the continuation is left of a value that did not start empty. -/
theorem continuation_replaces :
    ¬∀ (kore_strtonum : Strtonum) (null_text : Option Bytes)
      (instance_id configfile file log : Bytes) (app : App) (before conts after : List Bytes)
      (line name v₀ : Bytes), Placed file before line conts after name v₀ →
      application_config kore_strtonum null_text (application_create instance_id) configfile
        (some file) = .ok (app, log) →
      Extended kore_strtonum app file (qualified (section_behind before) name)
        (before.length + 1) conts v₀ := by
  intro h
  have hanswer : (application_config no_number none (application_create (bytes "ab-CDEFGH"))
      (bytes "framework.ini") (some (mail_file (bytes "host=h0\n") (bytes "  h1\n"))) >>=
        fun r => lift (config_get_str r.1 (bytes "mail.host") none)) =
          .ok (some (bytes "h1")) := by decide
  obtain ⟨⟨app, log⟩, hconfig, hget⟩ := bind_ok hanswer
  have hplaced : Placed (mail_file (bytes "host=h0\n") (bytes "  h1\n")) server_lines
      (bytes "host=h0\n") [bytes "  h1\n"] [] (bytes "host") (bytes "h0") :=
    ⟨by decide, by decide, by decide, by decide, by
      intro l hl
      rw [List.mem_singleton.mp hl]
      exact indented_host⟩
  obtain ⟨value, hvalue, hall⟩ := (h _ _ _ _ _ _ _ _ _ _ _ _ _ hplaced hconfig).found
  have hkey : qualified (section_behind server_lines) (bytes "host") = bytes "mail.host" := by
    decide
  rw [hkey, lift_eq_ok.mp hget] at hvalue
  obtain rfl := Option.some.inj (Except.ok.inj hvalue)
  exact absurd hall.length_le (by decide)

end Continuations
