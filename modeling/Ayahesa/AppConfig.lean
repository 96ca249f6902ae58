import Ayahesa.CompatCopy
import Ayahesa.DecimalText
import Ayahesa.TreeInvariant

/-! # The configuration tree of the application

Every setting appends an item, so an override is a later item of the same key. Sections and
names are C strings, given as their characters. -/
namespace AppConfig

open CMemory HttpRequest SlotStore TreeStore TreeInvariant CompatCopy DecimalText

/-- The root node; `value` is its `value.str`, the name of the instance. -/
structure App where
  value : Bytes
  config : Tree
  cache : Tree
  deriving DecidableEq, Repr

/-- `kore_strtonum` on a text, a base and the bounds: the number, 0 when there is none, and
the error flag. -/
abbrev Strtonum := Bytes → ℤ → ℤ → ℤ → ℤ × Bool

def application_create (instance_id : Bytes) : App where
  value := instance_id
  config := fresh T_FLAG_READONLY
  cache := fresh 0

/-- The qualified key as it is built in its buffer. Both texts lie in memory, so the sum of
their lengths does not wrap. -/
def compose_key (sect name : Bytes) : C Bytes := do
  let keylen := sect.length + 1 + name.length + 1
  let key := aya_malloc keylen
  let (key, _) ← aya_strlcpy key sect keylen
  let (key, _) ← aya_strlcat key (bytes ".") keylen
  let (key, _) ← aya_strlcat key name keylen
  contents key

def config_put_int (app : App) (key : Bytes) (value : ℤ) : Proc App :=
  (tree_put_int app.config key value).map fun config => { app with config := config }

def config_put_str (app : App) (key value : Bytes) : Proc App :=
  (tree_put_str app.config key value).map fun config => { app with config := config }

def config_get_int (app : App) (key : Bytes) (value : Option ℤ) : C (Option ℤ) :=
  tree_get_int app.config key value

def config_get_str (app : App) (key : Bytes) (value : Option Bytes) : C (Option Bytes) :=
  tree_get_str app.config key value

/-- The `int` is what the handler returns. The error of `kore_strtonum` is not looked at. -/
def load_config_tree (kore_strtonum : Strtonum) (app : App) (sect name value : Bytes)
    (lineno : ℕ) : Proc (App × ℤ) :=
  if sect = bytes "app" ∧ value.length = 0 then
    .error (.abort (bytes "Config item in '[app]' cannot be empty (line:" ++ decimal lineno ++
      bytes ")\n"))
  else if name = bytes "debug" then do
    let debug := if value = bytes "true" ∨ value = bytes "1" then 1 else 0
    let app ← config_put_int app (bytes "debug") debug
    return (app, 1)
  else if sect = bytes "app" ∧ name = bytes "session" then do
    let time := (kore_strtonum value 10 60 86400).1
    let app ← config_put_int app (bytes "app.session") time
    return (app, 1)
  else if name = bytes "instance" then
    return ({ app with value := value }, 1)
  else if sect.length ≠ 0 then do
    let key ← lift (compose_key sect name)
    let app ← config_put_str app key value
    return (app, 1)
  else do
    let app ← config_put_str app name value
    return (app, 1)

structure Setting where
  sect : Bytes
  name : Bytes
  value : Bytes
  lineno : ℕ
  deriving DecidableEq, Repr

abbrev Loader (σ : Type) := σ → Bytes → Bytes → Bytes → ℕ → Proc (σ × ℤ)

/-- One call after the other; only a fault or an abort ends the sequence early. -/
def load_each {σ : Type} (load : Loader σ) (app : σ) (settings : List Setting) : Proc σ :=
  settings.foldlM (fun app s => (load app s.sect s.name s.value s.lineno).map Prod.fst) app

def load_settings (kore_strtonum : Strtonum) (app : App) (settings : List Setting) : Proc App :=
  load_each (load_config_tree kore_strtonum) app settings

theorem compose_key_eq {sect name : Bytes} (hs : 0 ∉ sect) (hn : 0 ∉ name) :
    compose_key sect name = .ok (sect ++ bytes "." ++ name) := by
  have hdot : bytes "." = [46] := by decide
  have hsdot : 0 ∉ sect ++ [46] := by simpa using hs
  have hcopy : aya_strlcpy (aya_malloc (sect.length + 1 + name.length + 1)) sect
      (sect.length + 1 + name.length + 1) =
        .ok (terminated sect ++ aya_malloc (name.length + 1), sect.length) := by
    rw [aya_strlcpy_eq _ _ (Nat.succ_pos _) (by simp [aya_malloc]),
      List.take_of_length_le (by omega), aya_malloc, List.drop_replicate, aya_malloc]
    congr 4
    omega
  have hsep : aya_strlcat (terminated sect ++ aya_malloc (name.length + 1)) [46]
      (sect.length + 1 + name.length + 1) =
        .ok (terminated (sect ++ [46]) ++ aya_malloc name.length, sect.length + 1) := by
    rw [aya_strlcat_eq hs _ _ (by omega) (by rw [aya_malloc_length]; omega),
      List.take_of_length_le (by rw [List.length_singleton]; omega), aya_malloc,
      List.drop_replicate, aya_malloc]
    rfl
  have hname : aya_strlcat (terminated (sect ++ [46]) ++ aya_malloc name.length) name
      (sect.length + 1 + name.length + 1) =
        .ok (terminated (sect ++ [46] ++ name), sect.length + 1 + name.length) := by
    have hlen : (sect ++ [46]).length = sect.length + 1 := List.length_append
    rw [aya_strlcat_eq hsdot _ _ (by omega) (by rw [aya_malloc_length]; omega),
      List.take_of_length_le (by omega), aya_malloc, List.drop_replicate, Nat.sub_self]
    simp
  have hkey : 0 ∉ sect ++ [46] ++ name := by simpa using And.intro hs hn
  have hread := contents_terminated hkey []
  rw [List.append_nil] at hread
  simp only [compose_key, bind, Except.bind, hdot, hcopy, hsep, hname, hread]

/-! ## What one setting does -/

def qualified (sect name : Bytes) : Bytes :=
  if sect.length ≠ 0 then sect ++ bytes "." ++ name else name

def Refused (s : Setting) : Prop := s.sect = bytes "app" ∧ s.value.length = 0

instance (s : Setting) : Decidable (Refused s) := inferInstanceAs (Decidable (_ ∧ _))

def stored (kore_strtonum : Strtonum) (s : Setting) : Option Item :=
  if s.name = bytes "debug" then
    some ⟨bytes "debug",
      .T_INT (if s.value = bytes "true" ∨ s.value = bytes "1" then 1 else 0)⟩
  else if s.sect = bytes "app" ∧ s.name = bytes "session" then
    some ⟨bytes "app.session", .T_INT (kore_strtonum s.value 10 60 86400).1⟩
  else if s.name = bytes "instance" then none
  else some ⟨qualified s.sect s.name, .T_STRING s.value⟩

def Clean (s : Setting) : Prop := 0 ∉ s.sect ∧ 0 ∉ s.name ∧ 0 ∉ s.value

instance (s : Setting) : Decidable (Clean s) := inferInstanceAs (Decidable (_ ∧ _))

theorem load_eq (kore_strtonum : Strtonum) (app : App) {s : Setting} (hc : Clean s) :
    load_config_tree kore_strtonum app s.sect s.name s.value s.lineno =
      if Refused s then
        .error (.abort (bytes "Config item in '[app]' cannot be empty (line:" ++
          decimal s.lineno ++ bytes ")\n"))
      else match stored kore_strtonum s with
        | some item => (tree_new_item app.config item).map fun config =>
            ({ app with config := config }, 1)
        | none => .ok ({ app with value := s.value }, 1) := by
  have bind_pair : ∀ x : Proc Tree, (do
      let app ← x.map fun config => ({ app with config := config } : App)
      return (app, (1 : ℤ))) = x.map fun config => ({ app with config := config }, 1) := by
    intro x
    cases x <;> rfl
  unfold load_config_tree
  by_cases hr : Refused s
  · rw [if_pos hr]
    exact if_pos hr
  rw [if_neg hr, stored]
  refine (if_neg hr).trans ?_
  by_cases hdebug : s.name = bytes "debug"
  · rw [if_pos hdebug, if_pos hdebug]
    exact bind_pair _
  rw [if_neg hdebug, if_neg hdebug]
  by_cases hsession : s.sect = bytes "app" ∧ s.name = bytes "session"
  · rw [if_pos hsession, if_pos hsession]
    exact bind_pair _
  rw [if_neg hsession, if_neg hsession]
  by_cases hinst : s.name = bytes "instance"
  · rw [if_pos hinst, if_pos hinst]
    rfl
  rw [if_neg hinst, if_neg hinst, qualified]
  by_cases hsect : s.sect.length ≠ 0
  · rw [if_pos hsect, if_pos hsect, compose_key_eq hc.1 hc.2.1]
    exact bind_pair _
  · rw [if_neg hsect, if_neg hsect]
    exact bind_pair _

theorem load_each_append {σ : Type} (load : Loader σ) (app : σ) (settings more : List Setting) :
    load_each load app (settings ++ more) =
      (load_each load app settings >>= fun app => load_each load app more) := List.foldlM_append

theorem load_each_singleton {σ : Type} (load : Loader σ) (app : σ) (s : Setting) :
    load_each load app [s] = (load app s.sect s.name s.value s.lineno).map Prod.fst := by
  simp [load_each]

def record : Loader (List Setting) := fun calls sect name value lineno =>
  .ok (calls ++ [⟨sect, name, value, lineno⟩], 1)

theorem load_each_record (calls settings : List Setting) :
    load_each record calls settings = .ok (calls ++ settings) := by
  induction settings generalizing calls with
  | nil => simp [load_each, pure, Except.pure]
  | cons s settings ih =>
    rw [← List.singleton_append, load_each_append, load_each_singleton, ← List.append_assoc]
    exact ih (calls ++ [s])

theorem load_step {kore_strtonum : Strtonum} {app app' : App} {s : Setting} {items : List Item}
    (hc : Clean s) (h : Packed app.config items)
    (hload : (load_config_tree kore_strtonum app s.sect s.name s.value s.lineno).map Prod.fst =
      .ok app') :
    ¬Refused s ∧ Packed app'.config (items ++ (stored kore_strtonum s).toList) ∧
      app'.value = (if (stored kore_strtonum s).isSome then app.value else s.value) ∧
      app'.cache = app.cache := by
  rw [load_eq kore_strtonum app hc] at hload
  by_cases hr : Refused s
  · rw [if_pos hr] at hload
    cases hload
  rw [if_neg hr] at hload
  refine ⟨hr, ?_⟩
  cases hstored : stored kore_strtonum s with
  | none =>
    rw [hstored] at hload
    obtain rfl := Except.ok.inj hload
    exact ⟨by simpa using h, rfl, rfl⟩
  | some item =>
    rw [hstored] at hload
    cases hput : tree_new_item app.config item with
    | error e =>
      simp only [hput] at hload
      cases hload
    | ok config =>
      simp only [hput] at hload
      obtain rfl := Except.ok.inj hload
      exact ⟨h.put hput, rfl, rfl⟩

def renamed (value : Bytes) (settings : List Setting) : Bytes :=
  settings.foldl (fun value s => if s.name = bytes "instance" then s.value else value) value

theorem stored_eq_none_iff {kore_strtonum : Strtonum} {s : Setting} :
    stored kore_strtonum s = none ↔ s.name = bytes "instance" := by
  unfold stored
  by_cases hdebug : s.name = bytes "debug"
  · rw [if_pos hdebug, hdebug]
    constructor
    · exact fun h => nomatch h
    · exact fun h => absurd h (by decide)
  rw [if_neg hdebug]
  by_cases hsession : s.sect = bytes "app" ∧ s.name = bytes "session"
  · rw [if_pos hsession, hsession.2]
    constructor
    · exact fun h => nomatch h
    · exact fun h => absurd h (by decide)
  rw [if_neg hsession]
  by_cases hinst : s.name = bytes "instance"
  · simp [hinst]
  · simp [hinst]

theorem load_settings_cons (kore_strtonum : Strtonum) (app : App) (s : Setting)
    (settings : List Setting) :
    load_settings kore_strtonum app (s :: settings) =
      ((load_config_tree kore_strtonum app s.sect s.name s.value s.lineno).map Prod.fst >>=
        fun app => load_settings kore_strtonum app settings) := by
  rw [← List.singleton_append, load_settings, load_each_append, load_each_singleton]
  rfl

/-- A run of loads over a tree that was only put to. -/
theorem load_from {kore_strtonum : Strtonum} {app app' : App} {settings : List Setting}
    {items : List Item} (hc : ∀ s ∈ settings, Clean s) (h : Packed app.config items)
    (hload : load_settings kore_strtonum app settings = .ok app') :
    (∀ s ∈ settings, ¬Refused s) ∧
      Packed app'.config (items ++ settings.filterMap (stored kore_strtonum)) ∧
      app'.value = renamed app.value settings := by
  induction settings generalizing app items with
  | nil =>
    obtain rfl := Except.ok.inj hload
    exact ⟨fun s hs => absurd hs List.not_mem_nil, by simpa using h, rfl⟩
  | cons s settings ih =>
    rw [load_settings_cons] at hload
    obtain ⟨next, hstep, hrest⟩ := bind_ok hload
    obtain ⟨hkept, hpacked, hvalue, -⟩ := load_step (hc s List.mem_cons_self) h hstep
    obtain ⟨hothers, hfinal, hname⟩ :=
      ih (fun t ht => hc t (List.mem_cons_of_mem s ht)) hpacked hrest
    have hall : ∀ t ∈ s :: settings, ¬Refused t := by
      intro t ht
      rcases List.mem_cons.mp ht with rfl | ht
      · exact hkept
      · exact hothers t ht
    refine ⟨hall, ?_, ?_⟩
    · rw [List.append_assoc] at hfinal
      cases hs : stored kore_strtonum s with
      | none =>
        rw [hs] at hfinal
        rw [List.filterMap_cons_none hs]
        exact hfinal
      | some item =>
        rw [hs] at hfinal
        rw [List.filterMap_cons_some hs]
        exact hfinal
    · rw [hname, hvalue, renamed, renamed, List.foldl_cons]
      congr 1
      by_cases hinst : s.name = bytes "instance"
      · rw [if_pos hinst, stored_eq_none_iff.mpr hinst]
        rfl
      · obtain ⟨item, hitem⟩ := Option.ne_none_iff_exists'.mp (stored_eq_none_iff.not.mpr hinst)
        rw [if_neg hinst, hitem]
        rfl

/-- Settings that are not refused are loaded as long as their items have room. -/
theorem load_ok {kore_strtonum : Strtonum} {app : App} {settings : List Setting}
    {items : List Item} (hc : ∀ s ∈ settings, Clean s) (h : Packed app.config items)
    (hkept : ∀ s ∈ settings, ¬Refused s)
    (hroom : (items ++ settings.filterMap (stored kore_strtonum)).length ≤ 2 ^ 31) :
    ∃ app', load_settings kore_strtonum app settings = .ok app' := by
  induction settings generalizing app items with
  | nil => exact ⟨app, rfl⟩
  | cons s settings ih =>
    have hs := hc s List.mem_cons_self
    have hall := fun t ht => hc t (List.mem_cons_of_mem s ht)
    have hothers := fun t ht => hkept t (List.mem_cons_of_mem s ht)
    have hload := load_eq kore_strtonum app hs
    rw [if_neg (hkept s List.mem_cons_self)] at hload
    rw [load_settings_cons]
    cases hitem : stored kore_strtonum s with
    | none =>
      rw [List.filterMap_cons_none hitem] at hroom
      rw [hload, hitem]
      exact ih hall h hothers hroom
    | some item =>
      rw [List.filterMap_cons_some hitem] at hroom
      have hfree : items.length < 2 ^ 31 := by
        rw [List.length_append, List.length_cons] at hroom
        omega
      obtain ⟨config, hput⟩ := @Packed.put_ok app.config items item h hfree
      rw [hload, hitem]
      simp only [hput]
      exact ih hall (h.put hput) hothers (by simpa using hroom)

theorem load_run {kore_strtonum : Strtonum} {instance_id : Bytes} {settings : List Setting}
    {app : App} (hc : ∀ s ∈ settings, Clean s)
    (hload : load_settings kore_strtonum (application_create instance_id) settings = .ok app) :
    Packed app.config (settings.filterMap (stored kore_strtonum)) :=
  (load_from hc (packed_fresh T_FLAG_READONLY) hload).2.1

end AppConfig
