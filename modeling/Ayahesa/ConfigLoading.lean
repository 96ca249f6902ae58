import Ayahesa.AppStart
import Ayahesa.ConfigOverride
import Ayahesa.IniCalls

/-! # Loading a configuration file is not all or abort

The parser gives up at the first malformed line and returns its number. The caller only looks
for a negative number, so the server goes on with the settings in front of that line whenever
these are enough for the check that follows. -/
namespace ConfigLoading

open CMemory HttpRequest TreeStore TreeInvariant AppConfig ConfigOverride IniParser IniCalls
  AppStart

variable {kore_strtonum : Strtonum}

def required : List Bytes := [bytes "app.name", bytes "app.env", bytes "app.key"]

/-- The items behind the check: a default for `debug` comes last. -/
def defaulted (items : List Item) : List Item :=
  if ∃ item ∈ items, item.key = bytes "debug" then items
  else items ++ [⟨bytes "debug", .T_INT 0⟩]

structure Accepted (kore_strtonum : Strtonum) (null_text : Option Bytes)
    (settings : List Setting) : Prop where
  kept : ∀ s ∈ settings, ¬Refused s
  required : ∀ key ∈ required, (last_value settings key).isSome
  room : (defaulted (settings.filterMap (stored kore_strtonum))).length ≤ 2 ^ 31
  storage : (last_value settings (bytes "storage")).isSome ∨ null_text.isSome

theorem load_accepting : Accepting (load_config_tree kore_strtonum) := by
  have hput : ∀ {x : Proc App} {app : App} {result : ℤ},
      (x >>= fun app => (.ok (app, 1) : Proc (App × ℤ))) = .ok (app, result) → result ≠ 0 := by
    intro x app result h
    obtain ⟨app', -, hret⟩ := bind_ok h
    obtain ⟨-, rfl⟩ := Prod.mk.inj (Except.ok.inj hret)
    decide
  intro app sect name value lineno app' result h
  unfold load_config_tree at h
  split at h
  · cases h
  split at h
  · exact hput h
  split at h
  · exact hput h
  split at h
  · obtain ⟨-, rfl⟩ := Prod.mk.inj (Except.ok.inj h)
    decide
  split at h
  · obtain ⟨key, -, h⟩ := bind_ok h
    exact hput h
  · exact hput h

/-! ## The check behind the loading -/

section Check

variable {app app' : App} {items : List Item}

theorem contains_packed (h : Packed app.config items) (key : Bytes) :
    tree_contains app.config key = .ok (decide (∃ item ∈ items, item.key = key)) := by
  rw [contains_ok h.sound, h.entries]

theorem validate_eq (h : Packed app.config items)
    (hkeys : ∀ key ∈ required, ∃ item ∈ items, item.key = key) :
    validate_config app =
      if ∃ item ∈ items, item.key = bytes "debug" then .ok app
      else config_put_int app (bytes "debug") 0 := by
  have hname := hkeys (bytes "app.name") (by simp [required])
  have henv := hkeys (bytes "app.env") (by simp [required])
  have hkey := hkeys (bytes "app.key") (by simp [required])
  simp only [validate_config, contains_packed h, lift_ok, bind, Except.bind, decide_eq_true hname,
    decide_eq_true henv, decide_eq_true hkey]
  by_cases hdebug : ∃ item ∈ items, item.key = bytes "debug"
  · rw [decide_eq_true hdebug, if_pos hdebug]
    rfl
  · rw [decide_eq_false hdebug, if_neg hdebug]
    rfl

theorem validate_keys (h : Packed app.config items) (hvalid : validate_config app = .ok app') :
    ∀ key ∈ required, ∃ item ∈ items, item.key = key := by
  simp only [validate_config, contains_packed h, lift_ok, bind, Except.bind] at hvalid
  split at hvalid
  · cases hvalid
  next hname =>
    split at hvalid
    · cases hvalid
    next henv =>
      split at hvalid
      · cases hvalid
      next hkey =>
        intro key hmem
        simp only [required, List.mem_cons, List.not_mem_nil, or_false] at hmem
        rcases hmem with rfl | rfl | rfl
        · exact of_decide_eq_true (not_not.mp hname)
        · exact of_decide_eq_true (not_not.mp henv)
        · exact of_decide_eq_true (not_not.mp hkey)

theorem validate_inv (h : Packed app.config items) (hvalid : validate_config app = .ok app') :
    Packed app'.config (defaulted items) ∧ app'.value = app.value := by
  rw [validate_eq h (validate_keys h hvalid)] at hvalid
  rw [defaulted]
  by_cases hdebug : ∃ item ∈ items, item.key = bytes "debug"
  · rw [if_pos hdebug] at hvalid ⊢
    obtain rfl := Except.ok.inj hvalid
    exact ⟨h, rfl⟩
  · rw [if_neg hdebug] at hvalid ⊢
    rw [config_put_int, tree_put_int] at hvalid
    cases hput : tree_new_item app.config ⟨bytes "debug", .T_INT 0⟩ with
    | error e =>
      rw [hput] at hvalid
      cases hvalid
    | ok config =>
      rw [hput] at hvalid
      obtain rfl := Except.ok.inj hvalid
      exact ⟨h.put hput, rfl⟩

theorem validate_ok (h : Packed app.config items)
    (hkeys : ∀ key ∈ required, ∃ item ∈ items, item.key = key)
    (hroom : (defaulted items).length ≤ 2 ^ 31) : ∃ app', validate_config app = .ok app' := by
  rw [validate_eq h hkeys]
  rw [defaulted] at hroom
  by_cases hdebug : ∃ item ∈ items, item.key = bytes "debug"
  · exact ⟨app, if_pos hdebug⟩
  · rw [if_neg hdebug, List.length_append, List.length_singleton] at hroom
    obtain ⟨config, hput⟩ := @Packed.put_ok app.config items ⟨bytes "debug", .T_INT 0⟩ h
      (Nat.lt_of_succ_le hroom)
    rw [if_neg hdebug, config_put_int, tree_put_int, hput]
    exact ⟨_, rfl⟩

end Check

/-- A key is in the tree if and only if a setting gave it a string. -/
theorem item_iff_last {key : Bytes} (settings : List Setting) (hdebug : key ≠ bytes "debug")
    (hsession : key ≠ bytes "app.session") :
    (∃ item ∈ settings.filterMap (stored kore_strtonum), item.key = key) ↔
      (last_value settings key).isSome := by
  have hitems := @items_of_key kore_strtonum key settings hdebug hsession
  have hempty : (settings.filterMap (stored kore_strtonum)).filter (·.key = key) = [] ↔
      settings.filter (fun s => decide (Sets key s)) = [] := by
    rw [hitems, List.map_eq_nil_iff]
  have hlast : last_value settings key = none ↔
      settings.filter (fun s => decide (Sets key s)) = [] := by
    rw [last_value, Option.map_eq_none_iff, List.getLast?_eq_none_iff]
  rw [Option.isSome_iff_ne_none, ne_eq, hlast, ← hempty]
  simp only [List.filter_eq_nil_iff, decide_eq_true_eq, not_forall, not_not, exists_prop]

theorem required_string {key : Bytes} (h : key ∈ required) :
    key ≠ bytes "debug" ∧ key ≠ bytes "app.session" := by
  revert key
  decide

theorem defaulted_filter {key : Bytes} (items : List Item) (hdebug : key ≠ bytes "debug") :
    (defaulted items).filter (·.key = key) = items.filter (·.key = key) := by
  rw [defaulted]
  split
  · rfl
  · rw [List.filter_append, List.filter_cons_of_neg (by simpa using hdebug.symm), List.filter_nil,
      List.append_nil]

/-- The number of a malformed line is not negative, so it is not taken for an error. -/
theorem application_config_eq (null_text : Option Bytes) (app : App) (configfile file : Bytes) :
    application_config kore_strtonum null_text app configfile (some file) = (do
      let app ← load_settings kore_strtonum app (read_settings file)
      let app ← validate_config app
      let storage ← lift (app_storage app)
      let storage ← lift (format_string null_text storage)
      return (app, snprintf 255 (storage ++ bytes "/ayahesa.log"))) := by
  rw [application_config, ini_parse_calls load_accepting, load_settings]
  cases load_each (load_config_tree kore_strtonum) app (read_settings file) with
  | error e => rfl
  | ok app =>
    have hpositive : ¬((((malformed_line file).getD 0 : ℕ) : ℤ) < 0) :=
      Int.not_lt.mpr (Int.natCast_nonneg _)
    simp only [Except.map, bind, Except.bind, if_neg hpositive]

section Outcome

variable {null_text : Option Bytes} {instance_id configfile file : Bytes}

theorem app_storage_checked {app : App} {settings : List Setting}
    (h : Packed app.config (defaulted (settings.filterMap (stored kore_strtonum)))) :
    app_storage app = .ok (last_value settings (bytes "storage")) := by
  have hget : config_get_str app (bytes "storage") none =
      .ok ((last_value settings (bytes "storage")).or none) :=
    config_get_str_stored h (defaulted_filter _ (by decide)) (by decide) (by decide) none
  rw [app_storage, hget, Option.or_none]

theorem application_config_inv {app : App} {log : Bytes}
    (h : application_config kore_strtonum null_text (application_create instance_id) configfile
      (some file) = .ok (app, log)) :
    Accepted kore_strtonum null_text (read_settings file) ∧
      Packed app.config (defaulted ((read_settings file).filterMap (stored kore_strtonum))) ∧
      app.value = renamed instance_id (read_settings file) := by
  have hclean := read_settings_clean file
  rw [application_config_eq] at h
  obtain ⟨loaded, hload, h⟩ := bind_ok h
  obtain ⟨checked, hcheck, h⟩ := bind_ok h
  obtain ⟨storage, hstorage, h⟩ := bind_ok h
  obtain ⟨text, htext, h⟩ := bind_ok h
  obtain ⟨rfl, -⟩ := Prod.mk.inj (Except.ok.inj h)
  obtain ⟨hkept, hpacked, hname⟩ := load_from hclean (packed_fresh T_FLAG_READONLY) hload
  rw [List.nil_append] at hpacked
  have hkeys := validate_keys hpacked hcheck
  obtain ⟨hfinal, hvalue⟩ := validate_inv hpacked hcheck
  refine ⟨⟨hkept, ?_, ?_, ?_⟩, hfinal, hvalue.trans hname⟩
  · intro key hkey
    obtain ⟨hdebug, hsession⟩ := required_string hkey
    exact (item_iff_last _ hdebug hsession).mp (hkeys key hkey)
  · have hbound := entries_bound hfinal.sound
    rw [hfinal.entries] at hbound
    exact hbound
  · rw [app_storage_checked hfinal, lift_ok] at hstorage
    obtain rfl := Except.ok.inj hstorage
    have hprinted := Option.isSome_iff_exists.mpr ⟨text, format_string_ok.mp (lift_eq_ok.mp htext)⟩
    rwa [Option.isSome_or, Bool.or_eq_true] at hprinted

theorem application_config_ok (h : Accepted kore_strtonum null_text (read_settings file)) :
    ∃ app log, application_config kore_strtonum null_text (application_create instance_id)
      configfile (some file) = .ok (app, log) := by
  have hclean := read_settings_clean file
  have hfits : ((read_settings file).filterMap (stored kore_strtonum)).length ≤ 2 ^ 31 := by
    have hroom := h.room
    rw [defaulted] at hroom
    split at hroom
    · exact hroom
    · rw [List.length_append] at hroom
      omega
  obtain ⟨loaded, hload⟩ : ∃ loaded, load_settings kore_strtonum (application_create instance_id)
      (read_settings file) = .ok loaded :=
    load_ok hclean (packed_fresh T_FLAG_READONLY) h.kept hfits
  obtain ⟨-, hpacked, -⟩ := load_from hclean (packed_fresh T_FLAG_READONLY) hload
  rw [List.nil_append] at hpacked
  have hkeys : ∀ key ∈ required, ∃ item ∈ (read_settings file).filterMap (stored kore_strtonum),
      item.key = key := by
    intro key hkey
    obtain ⟨hdebug, hsession⟩ := required_string hkey
    exact (item_iff_last _ hdebug hsession).mpr (h.required key hkey)
  obtain ⟨checked, hcheck⟩ := validate_ok hpacked hkeys h.room
  have hfinal := (validate_inv hpacked hcheck).1
  have hget := app_storage_checked hfinal
  obtain ⟨text, htext⟩ : ∃ text, format_string null_text
      (last_value (read_settings file) (bytes "storage")) = .ok text := by
    have hset := h.storage
    rw [← Bool.or_eq_true, ← Option.isSome_or] at hset
    obtain ⟨text, hor⟩ := Option.isSome_iff_exists.mp hset
    exact ⟨text, format_string_ok.mpr hor⟩
  refine ⟨checked, snprintf 255 (text ++ bytes "/ayahesa.log"), ?_⟩
  rw [application_config_eq, hload]
  simp only [bind, Except.bind, hcheck, hget, lift_ok, htext]
  rfl

end Outcome

/-! ## Settings that are never loaded -/

/-- A loader that also notes down its calls. -/
def traced {σ : Type} (load : Loader σ) : Loader (σ × List Setting) :=
  fun (user, calls) sect name value lineno =>
    (load user sect name value lineno).map fun (user, result) =>
      ((user, calls ++ [⟨sect, name, value, lineno⟩]), result)

theorem traced_accepting {σ : Type} {load : Loader σ} (h : Accepting load) :
    Accepting (traced load) := by
  rintro ⟨user, calls⟩ sect name value lineno after result hcall
  dsimp only [traced] at hcall
  cases hload : load user sect name value lineno with
  | error e =>
    rw [hload] at hcall
    cases hcall
  | ok loaded =>
    rw [hload] at hcall
    obtain ⟨-, rfl⟩ := Prod.mk.inj (Except.ok.inj hcall)
    exact h user sect name value lineno loaded.1 loaded.2 hload

theorem load_each_traced {σ : Type} (load : Loader σ) (user : σ) (calls settings : List Setting) :
    load_each (traced load) (user, calls) settings =
      (load_each load user settings).map fun user => (user, calls ++ settings) := by
  induction settings generalizing user calls with
  | nil => simp [load_each, pure, Except.pure, Except.map]
  | cons s settings ih =>
    have hcons : ∀ {τ : Type} (load : Loader τ) (user : τ), load_each load user (s :: settings) =
        ((load user s.sect s.name s.value s.lineno).map Prod.fst >>=
          fun user => load_each load user settings) := by
      intro τ load user
      rw [← List.singleton_append, load_each_append, load_each_singleton]
    rw [hcons, hcons, traced]
    cases hload : load user s.sect s.name s.value s.lineno with
    | error e => rfl
    | ok loaded =>
      have ih := ih loaded.1 (calls ++ [s])
      rw [List.append_assoc] at ih
      exact ih

/-- Where the server goes on, every setting of the file was given to `load_config_tree` and no
line was malformed. -/
def AllOrAbort (kore_strtonum : Strtonum) (null_text : Option Bytes)
    (instance_id configfile file : Bytes) : Prop :=
  ∀ app log, application_config kore_strtonum null_text (application_create instance_id)
      configfile (some file) = .ok (app, log) →
    (∃ loaded error, ini_parse (traced (load_config_tree kore_strtonum))
        (application_create instance_id, []) (some file) =
      .ok ((loaded, file_settings file), error)) ∧
    malformed_line file = none

theorem all_or_abort_iff (kore_strtonum : Strtonum) (null_text : Option Bytes)
    (instance_id configfile file : Bytes) :
    AllOrAbort kore_strtonum null_text instance_id configfile file ↔
      malformed_line file = none ∨ ¬Accepted kore_strtonum null_text (read_settings file) := by
  constructor
  · intro h
    by_cases haccepted : Accepted kore_strtonum null_text (read_settings file)
    · obtain ⟨app, log, hconfig⟩ := application_config_ok haccepted
      exact Or.inl (h app log hconfig).2
    · exact Or.inr haccepted
  · rintro (hnone | hrefused) app log hconfig
    · refine ⟨?_, hnone⟩
      rw [application_config_eq] at hconfig
      obtain ⟨loaded, hload, -⟩ := bind_ok hconfig
      have hread : read_settings file = file_settings file := settings_before_eq hnone
      refine ⟨loaded, 0, ?_⟩
      rw [ini_parse_calls (traced_accepting load_accepting), load_each_traced, ← load_settings,
        hload, hnone, hread]
      rfl
    · exact absurd (application_config_inv hconfig).1 hrefused

def broken_file : Bytes :=
  bytes "storage=s\n[app]\nname=n\nenv=e\nkey=QQ==\nbroken\nsession=3600\n"

theorem all_or_abort_broken :
    ¬∀ (kore_strtonum : Strtonum) (null_text : Option Bytes) (instance_id configfile file : Bytes),
      AllOrAbort kore_strtonum null_text instance_id configfile file := by
  intro h
  have hok : (application_config no_number none (application_create (bytes "ab-CDEFGH"))
    (bytes "framework.ini") (some broken_file)).isOk := by decide
  obtain ⟨⟨app, log⟩, hconfig⟩ := ok_of_isOk hok
  obtain ⟨⟨loaded, error, hparse⟩, -⟩ :=
    h no_number none (bytes "ab-CDEFGH") (bytes "framework.ini") broken_file app log hconfig
  have hcalls : (ini_parse (traced (load_config_tree no_number))
      (application_create (bytes "ab-CDEFGH"), []) (some broken_file)).map (fun x => x.1.2) =
        .ok (file_settings broken_file) := by
    rw [hparse]
    rfl
  exact absurd hcalls (by decide)

end ConfigLoading
