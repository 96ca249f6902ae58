import Ayahesa.IniLines

/-! # The calls that the parser makes for a file

The lines are read one by one, each with the section and the previous name that the lines
before it have left. The parser ends at the first line that it can make nothing of, whatever
stands behind it. -/
namespace IniCalls

open CMemory CompatStrings AppConfig IniParser IniLines

def next_state (st : IniState) : LineKind → IniState
  | .header sect => ⟨sect.take (MAX_SECTION - 1), []⟩
  | .pair name _ => { st with prev_name := name.take (MAX_NAME - 1) }
  | .skip | .more _ | .malformed => st

def call_of (st : IniState) (lineno : ℕ) : LineKind → Option Setting
  | .more value => some ⟨st.sect, st.prev_name, value, lineno⟩
  | .pair name value => some ⟨st.sect, name, value, lineno⟩
  | .skip | .header _ | .malformed => none

/-- The settings of all lines; a malformed line has none, and the reading goes on behind it. -/
def settings_of_lines (st : IniState) (lineno : ℕ) : List Bytes → List Setting
  | [] => []
  | line :: rest =>
    let kind := kind_of (lineno + 1) st.prev_name (c_string line)
    (call_of st (lineno + 1) kind).toList ++
      settings_of_lines (next_state st kind) (lineno + 1) rest

/-- The settings of the lines in front of the first malformed one. -/
def settings_before (st : IniState) (lineno : ℕ) : List Bytes → List Setting
  | [] => []
  | line :: rest =>
    let kind := kind_of (lineno + 1) st.prev_name (c_string line)
    if kind = .malformed then []
    else (call_of st (lineno + 1) kind).toList ++
      settings_before (next_state st kind) (lineno + 1) rest

/-- The number of the first malformed line. -/
def first_malformed (st : IniState) (lineno : ℕ) : List Bytes → Option ℕ
  | [] => none
  | line :: rest =>
    let kind := kind_of (lineno + 1) st.prev_name (c_string line)
    if kind = .malformed then some (lineno + 1)
    else first_malformed (next_state st kind) (lineno + 1) rest

def file_settings (file : Bytes) : List Setting := settings_of_lines ⟨[], []⟩ 0 (fgets_lines file)

def read_settings (file : Bytes) : List Setting := settings_before ⟨[], []⟩ 0 (fgets_lines file)

def malformed_line (file : Bytes) : Option ℕ := first_malformed ⟨[], []⟩ 0 (fgets_lines file)

section Run

variable {σ : Type} {handler : Loader σ}

/-- A handler that never reports an error. -/
def Accepting (handler : Loader σ) : Prop :=
  ∀ user sect name value lineno user' result,
    handler user sect name value lineno = .ok (user', result) → result ≠ 0

theorem handle_accepting (h : Accepting handler) (user : σ) (sect name value : Bytes)
    (lineno : ℕ) :
    handle handler user sect name value lineno =
      ((handler user sect name value lineno).map Prod.fst).map fun user => (user, 0) := by
  unfold handle
  cases hcall : handler user sect name value lineno with
  | error e => rfl
  | ok call =>
    have hresult := h user sect name value lineno call.1 call.2 hcall
    simp [Except.map, hresult]

theorem ini_lines_cons (st : IniState) (user : σ) (lineno : ℕ) (line : Bytes)
    (rest : List Bytes) :
    ini_lines handler st user lineno ((line ++ [0]) :: rest) =
      (act handler st user (lineno + 1) (kind_of (lineno + 1) st.prev_name (c_string line)) >>=
        fun (st, user, error) =>
          if error ≠ 0 then .ok (user, error)
          else ini_lines handler st user (lineno + 1) rest) := by
  obtain ⟨right, hsplit⟩ := c_string_split line
  rw [ini_lines, hsplit, ini_line_eq handler st user (lineno + 1) right (c_string_clean line)]
  rfl

theorem act_eq (haccept : Accepting handler) (st : IniState) (user : σ) (lineno : ℕ)
    (kind : LineKind) :
    act handler st user lineno kind =
      (load_each handler user (call_of st lineno kind).toList).map fun user =>
        (next_state st kind, user, if kind = .malformed then lineno else 0) := by
  have hcall : ∀ name value, load_each handler user
      (some (⟨st.sect, name, value, lineno⟩ : Setting)).toList =
        (handler user st.sect name value lineno).map Prod.fst := by
    intro name value
    rw [Option.toList_some, load_each_singleton]
  cases kind with
  | skip => rfl
  | header sect => rfl
  | malformed => rfl
  | more value =>
    rw [act, handle_accepting haccept, call_of, hcall]
    cases handler user st.sect st.prev_name value lineno <;> rfl
  | pair name value =>
    rw [act, handle_accepting haccept, call_of, hcall]
    cases handler user st.sect name value lineno <;> rfl

theorem ini_lines_calls (haccept : Accepting handler) (st : IniState) (user : σ) (lineno : ℕ)
    (lines : List Bytes) :
    ini_lines handler st user lineno (lines.map (· ++ [0])) =
      (load_each handler user (settings_before st lineno lines)).map fun user =>
        (user, (first_malformed st lineno lines).getD 0) := by
  induction lines generalizing st user lineno with
  | nil => rfl
  | cons line rest ih =>
    obtain ⟨kind, hkind⟩ : ∃ kind, kind = kind_of (lineno + 1) st.prev_name (c_string line) :=
      ⟨_, rfl⟩
    rw [List.map_cons, ini_lines_cons, settings_before, first_malformed, act_eq haccept, ← hkind]
    by_cases hbad : kind = .malformed
    · subst hbad
      rfl
    · simp only [if_neg hbad]
      rw [load_each_append]
      cases load_each handler user (call_of st (lineno + 1) kind).toList with
      | error e => rfl
      | ok user => exact ih (next_state st kind) user (lineno + 1)

theorem ini_parse_calls (haccept : Accepting handler) (user : σ) (file : Bytes) :
    ini_parse handler user (some file) =
      (load_each handler user (read_settings file)).map fun user =>
        (user, (((malformed_line file).getD 0 : ℕ) : ℤ)) := by
  rw [ini_parse, ini_parse_file, ini_parse_stream, ini_lines_calls haccept, read_settings,
    malformed_line]
  cases load_each handler user (settings_before ⟨[], []⟩ 0 (fgets_lines file)) <;> rfl

end Run

theorem settings_before_eq {lines : List Bytes} {st : IniState} {lineno : ℕ}
    (h : first_malformed st lineno lines = none) :
    settings_before st lineno lines = settings_of_lines st lineno lines := by
  induction lines generalizing st lineno with
  | nil => rfl
  | cons line rest ih =>
    obtain ⟨kind, hkind⟩ : ∃ kind, kind = kind_of (lineno + 1) st.prev_name (c_string line) :=
      ⟨_, rfl⟩
    rw [first_malformed, ← hkind] at h
    rw [settings_before, settings_of_lines, ← hkind]
    by_cases hbad : kind = .malformed
    · simp [hbad] at h
    · simp only [if_neg hbad] at h ⊢
      rw [ih h]

/-! ## The texts of a call are C strings -/

def CleanState (st : IniState) : Prop := 0 ∉ st.sect ∧ 0 ∉ st.prev_name

def CleanKind : LineKind → Prop
  | .skip | .malformed => True
  | .more value => 0 ∉ value
  | .header sect => 0 ∉ sect
  | .pair name value => 0 ∉ name ∧ 0 ∉ value

theorem value_of_clean {text : Bytes} (h : 0 ∉ text) : 0 ∉ value_of text := fun h0 =>
  h (List.mem_of_mem_take ((List.dropWhile_suffix isspace).subset (stripped_subset h0)))

theorem line_kind_clean (indented : Bool) (prev_name : Bytes) {text : Bytes} (h : 0 ∉ text) :
    CleanKind (line_kind indented prev_name text) := by
  have hcut : ∀ {s : Bytes} n, 0 ∉ s → 0 ∉ s.take n := fun n hs h0 => hs (List.mem_of_mem_take h0)
  have hrest : ∀ {s : Bytes} n, 0 ∉ s → 0 ∉ s.drop n := fun n hs h0 => hs (List.mem_of_mem_drop h0)
  cases text with
  | nil => exact trivial
  | cons c text =>
    have htail : 0 ∉ text := fun h0 => h (List.mem_cons_of_mem c h0)
    rw [line_kind]
    by_cases hcomment : c = 59 ∨ c = 35
    · rw [if_pos hcomment]
      exact trivial
    rw [if_neg hcomment]
    by_cases hmore : prev_name ≠ [] ∧ indented = true
    · rw [if_pos hmore]
      exact h
    rw [if_neg hmore]
    by_cases hopen : c = 91
    · rw [if_pos hopen]
      dsimp only
      split
      · exact hcut _ htail
      · exact trivial
    · rw [if_neg hopen]
      dsimp only
      split
      · exact ⟨fun h0 => hcut _ h (stripped_subset h0), value_of_clean (hrest _ h)⟩
      · exact trivial

theorem kind_of_clean (lineno : ℕ) (prev_name : Bytes) {text : Bytes} (h : 0 ∉ text) :
    CleanKind (kind_of lineno prev_name text) := by
  apply line_kind_clean
  exact fun h0 => h (List.mem_of_mem_drop (trimmed_subset h0))

theorem next_state_clean {st : IniState} {kind : LineKind} (hst : CleanState st)
    (hkind : CleanKind kind) : CleanState (next_state st kind) := by
  cases kind with
  | header sect => exact ⟨fun h0 => hkind (List.mem_of_mem_take h0), List.not_mem_nil⟩
  | pair name value => exact ⟨hst.1, fun h0 => hkind.1 (List.mem_of_mem_take h0)⟩
  | skip | more value | malformed => exact hst

theorem call_of_clean {st : IniState} {kind : LineKind} {lineno : ℕ} {s : Setting}
    (hst : CleanState st) (hkind : CleanKind kind) (h : call_of st lineno kind = some s) :
    Clean s := by
  cases kind with
  | more value =>
    obtain rfl := Option.some.inj h
    exact ⟨hst.1, hst.2, hkind⟩
  | pair name value =>
    obtain rfl := Option.some.inj h
    exact ⟨hst.1, hkind.1, hkind.2⟩
  | skip | header sect | malformed => cases h

theorem settings_before_clean {lines : List Bytes} {st : IniState} {lineno : ℕ}
    (hst : CleanState st) : ∀ s ∈ settings_before st lineno lines, Clean s := by
  induction lines generalizing st lineno with
  | nil => exact fun s hs => absurd hs List.not_mem_nil
  | cons line rest ih =>
    have hkind := kind_of_clean (lineno + 1) st.prev_name (c_string_clean line)
    intro s hs
    rw [settings_before] at hs
    split at hs
    · cases hs
    · rcases List.mem_append.mp hs with hcall | hrest
      · exact call_of_clean hst hkind (Option.mem_toList.mp hcall)
      · exact ih (next_state_clean hst hkind) s hrest

theorem read_settings_clean (file : Bytes) : ∀ s ∈ read_settings file, Clean s :=
  settings_before_clean ⟨List.not_mem_nil, List.not_mem_nil⟩

end IniCalls
