import Ayahesa.AppConfig

/-! # Later settings override earlier ones -/
namespace ConfigOverride

open CMemory SlotStore TreeStore TreeInvariant AppConfig
open HttpRequest (Item Value)

/-- A setting that is kept as a string under a key. -/
def Sets (key : Bytes) (s : Setting) : Prop :=
  s.name ≠ bytes "debug" ∧ s.name ≠ bytes "instance" ∧
    ¬(s.sect = bytes "app" ∧ s.name = bytes "session") ∧ qualified s.sect s.name = key

instance (key : Bytes) (s : Setting) : Decidable (Sets key s) :=
  inferInstanceAs (Decidable (_ ∧ _))

def last_value (settings : List Setting) (key : Bytes) : Option Bytes :=
  ((settings.filter fun s => decide (Sets key s)).getLast?).map Setting.value

variable {kore_strtonum : Strtonum} {key : Bytes}

theorem stored_sets {s : Setting} (h : Sets key s) :
    stored kore_strtonum s = some ⟨key, .T_STRING s.value⟩ := by
  obtain ⟨hdebug, hinst, hsession, hkey⟩ := h
  rw [stored, if_neg hdebug, if_neg hsession, if_neg hinst, hkey]

theorem stored_other {s : Setting} (hdebug : key ≠ bytes "debug")
    (hsession : key ≠ bytes "app.session") (h : ¬Sets key s) {item : Item}
    (hs : stored kore_strtonum s = some item) : item.key ≠ key := by
  unfold stored at hs
  by_cases hd : s.name = bytes "debug"
  · rw [if_pos hd] at hs
    obtain rfl := Option.some.inj hs
    exact hdebug.symm
  rw [if_neg hd] at hs
  by_cases ht : s.sect = bytes "app" ∧ s.name = bytes "session"
  · rw [if_pos ht] at hs
    obtain rfl := Option.some.inj hs
    exact hsession.symm
  rw [if_neg ht] at hs
  by_cases hi : s.name = bytes "instance"
  · rw [if_pos hi] at hs
    cases hs
  rw [if_neg hi] at hs
  obtain rfl := Option.some.inj hs
  exact fun hkey => h ⟨hd, hi, ht, hkey⟩

theorem items_of_key (settings : List Setting) (hdebug : key ≠ bytes "debug")
    (hsession : key ≠ bytes "app.session") :
    (settings.filterMap (stored kore_strtonum)).filter (·.key = key) =
      (settings.filter fun s => decide (Sets key s)).map fun s => ⟨key, .T_STRING s.value⟩ := by
  induction settings with
  | nil => rfl
  | cons s settings ih =>
    by_cases h : Sets key s
    · rw [List.filterMap_cons_some (stored_sets h), List.filter_cons_of_pos (by simp),
        List.filter_cons_of_pos (by simpa using h), List.map_cons, ih]
    · rw [List.filter_cons_of_neg (by simpa using h)]
      cases hs : stored kore_strtonum s with
      | none => rw [List.filterMap_cons_none hs, ih]
      | some item =>
        have hne := stored_other hdebug hsession h hs
        rw [List.filterMap_cons_some hs, List.filter_cons_of_neg (by simpa using hne), ih]

theorem config_get_str_packed {app : App} {items : List Item} (h : Packed app.config items)
    {texts : List Bytes}
    (hkey : items.filter (·.key = key) = texts.map fun text => ⟨key, .T_STRING text⟩)
    (value : Option Bytes) :
    config_get_str app key value = .ok (texts.getLast?.or value) := by
  have hselected : ∀ item ∈ items.filter (·.key = key), true →
      (of_item Value.str? item).isSome := by
    rintro item hitem -
    rw [hkey] at hitem
    obtain ⟨text, -, rfl⟩ := List.mem_map.mp hitem
    rfl
  have hvalues : (texts.map fun text => (⟨key, .T_STRING text⟩ : Item)).filterMap
      (of_item Value.str?) = texts := by
    rw [List.filterMap_map]
    exact List.filterMap_some
  rw [config_get_str, tree_get_str, ← h.sound.length, tree_read_all, tree_get_entries,
    h.entries, lookup_filter, lookup_last hselected, List.filter_true, hkey, hvalues]

/-- Items of other keys between those of the settings do not matter. -/
theorem config_get_str_stored {app : App} {items : List Item} {settings : List Setting}
    (h : Packed app.config items)
    (hitems : items.filter (·.key = key) =
      (settings.filterMap (stored kore_strtonum)).filter (·.key = key))
    (hdebug : key ≠ bytes "debug") (hsession : key ≠ bytes "app.session")
    (value : Option Bytes) :
    config_get_str app key value = .ok ((last_value settings key).or value) := by
  have htexts : (settings.filter fun s => decide (Sets key s)).map
      (fun s => (⟨key, .T_STRING s.value⟩ : Item)) =
      ((settings.filter fun s => decide (Sets key s)).map Setting.value).map
        fun text => ⟨key, .T_STRING text⟩ := by
    rw [List.map_map]
    rfl
  rw [items_of_key settings hdebug hsession, htexts] at hitems
  rw [config_get_str_packed h hitems, List.getLast?_map]
  rfl

theorem config_get_str_last {settings : List Setting} {instance_id : Bytes} {app : App}
    (hclean : ∀ s ∈ settings, Clean s)
    (hload : load_settings kore_strtonum (application_create instance_id) settings = .ok app)
    (hdebug : key ≠ bytes "debug") (hsession : key ≠ bytes "app.session")
    (value : Option Bytes) :
    config_get_str app key value = .ok ((last_value settings key).or value) := by
  have hpacked := load_run hclean hload
  exact config_get_str_stored hpacked rfl hdebug hsession value

def no_number : Strtonum := fun _ _ _ _ => (0, true)

def storage_twice : List Setting :=
  [⟨[], bytes "storage", bytes "a", 1⟩, ⟨bytes "app", bytes "name", bytes "n", 3⟩,
    ⟨[], bytes "storage", bytes "b", 1⟩]

theorem config_get_str_last_storage :
    ∃ app, load_settings no_number (application_create (bytes "ab-CDEFGH")) storage_twice =
        .ok app ∧
      config_get_str app (bytes "storage") none = .ok (some (bytes "b")) := by
  have hok : (load_settings no_number (application_create (bytes "ab-CDEFGH"))
    storage_twice).isOk := by decide
  obtain ⟨app, hload⟩ := ok_of_isOk hok
  have hclean : ∀ s ∈ storage_twice, Clean s := by decide
  have hlast : last_value storage_twice (bytes "storage") = some (bytes "b") := by decide
  refine ⟨app, hload, ?_⟩
  rw [config_get_str_last hclean hload (by decide) (by decide) none, hlast]
  rfl

end ConfigOverride
