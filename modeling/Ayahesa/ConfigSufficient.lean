import Ayahesa.ConfigEnvironment
import Ayahesa.ConfigLoading
import Ayahesa.KoreApi

/-! # What an accepted configuration may lack

The check asks for the name, the environment and the key of the application. Requests rely on
more than these, and on their form. -/
namespace ConfigSufficient

open CMemory CompatCopy TreeInvariant AppConfig ConfigOverride ConfigEnvironment IniCalls AppStart
  ConfigLoading
open HttpRequest (Item)
open KoreApi (Kore reference)

structure Sufficient (K : Kore) (copy : KoreCopy) (app : App) : Prop where
  name : ∃ text, app_name app = .ok (some text)
  environment : ∃ text, app_environment app = .ok (some text)
  domainname : ∀ buffer : Block, buffer.length = 128 →
    ∃ text, app_domainname copy app buffer = .ok (some text)
  key : ∃ text, app_key app = .ok (some text) ∧ (K.base64_decode text).isSome
  storage : ∃ text, app_storage app = .ok (some text)
  auth : ∀ text, app_basic_auth app = .ok (some text) → 58 ∈ text

/-- Settings that give requests what they use. A domain that does not start with its own dot
needs a short name of the instance in front of it. -/
structure Complete (K : Kore) (instance_id : Bytes) (settings : List Setting) : Prop where
  domain : ∃ text, last_value settings (bytes "app.domain") = some text ∧
    (text.head? = some 46 ∨ (renamed instance_id settings).length < 127)
  key : ∀ text, last_value settings (bytes "app.key") = some text → (K.base64_decode text).isSome
  storage : (last_value settings (bytes "storage")).isSome
  auth : ∀ text, last_value settings (bytes "auth") = some text → 58 ∈ text

variable {kore_strtonum : Strtonum} {null_text : Option Bytes}
  {instance_id configfile file : Bytes} {entries : List Bytes}

def loaded (file : Bytes) (entries : List Bytes) : List Setting :=
  read_settings file ++ settings_of actual 1 entries

theorem cut_clean {c : UInt8} {s x y : Bytes} (h : 0 ∉ s) (hcut : cut c s = some (x, y)) :
    0 ∉ x ∧ 0 ∉ y := by
  rcases cut_cases c s with ⟨-, hnone⟩ | ⟨u, v, rfl, -, hsome⟩
  · rw [hnone] at hcut
    cases hcut
  · rw [hsome] at hcut
    cases hcut
    constructor
    · exact fun h0 => h (List.mem_append_left _ h0)
    · exact fun h0 => h (List.mem_append_right _ (List.mem_cons_of_mem c h0))

theorem actual_clean {i : ℕ} {env : Bytes} {s : Setting} (h : 0 ∉ env)
    (hs : actual i env = some s) : Clean s := by
  obtain ⟨⟨N, V⟩, ha, rfl⟩ := Option.map_eq_some_iff.mp hs
  obtain ⟨hN, hV⟩ : 0 ∉ N ∧ 0 ∉ V := by
    unfold assignment at ha
    split at ha
    · exact cut_clean (fun h0 => h (List.mem_of_mem_drop h0)) ha
    · cases ha
  dsimp only
  cases hname : cut 95 N with
  | some SR =>
    obtain ⟨hS, hR⟩ := cut_clean hN hname
    exact ⟨strtolower_clean hS, strtolower_clean hR, hV⟩
  | none =>
    cases hvalue : cut 95 V with
    | some UW =>
      obtain ⟨hU, hW⟩ := cut_clean hV hvalue
      exact ⟨strtolower_clean hN, strtolower_clean hW, hU⟩
    | none => exact ⟨List.not_mem_nil, strtolower_clean hN, hV⟩

theorem settings_of_clean (i : ℕ) (h : ∀ env ∈ entries, 0 ∉ env) :
    ∀ s ∈ settings_of actual i entries, Clean s := by
  induction entries generalizing i with
  | nil => exact fun s hs => absurd hs List.not_mem_nil
  | cons env rest ih =>
    intro s hs
    rcases List.mem_append.mp hs with hfirst | hrest
    · exact actual_clean (h env List.mem_cons_self) (Option.mem_toList.mp hfirst)
    · exact ih (i + 1) (fun e he => h e (List.mem_cons_of_mem env he)) s hrest

theorem loaded_clean (file : Bytes) (h : ∀ env ∈ entries, 0 ∉ env) :
    ∀ s ∈ loaded file entries, Clean s := by
  intro s hs
  rcases List.mem_append.mp hs with hread | henv
  · exact read_settings_clean file s hread
  · exact settings_of_clean 1 h s henv

theorem renamed_append (value : Bytes) (settings more : List Setting) :
    renamed value (settings ++ more) = renamed (renamed value settings) more := List.foldl_append

theorem renamed_clean {value : Bytes} {settings : List Setting} (h : 0 ∉ value)
    (hc : ∀ s ∈ settings, Clean s) : 0 ∉ renamed value settings := by
  induction settings generalizing value with
  | nil => exact h
  | cons s settings ih =>
    apply ih
    · dsimp only
      split
      · exact (hc s List.mem_cons_self).2.2
      · exact h
    · exact fun t ht => hc t (List.mem_cons_of_mem s ht)

theorem last_value_append (settings more : List Setting) (key : Bytes) :
    last_value (settings ++ more) key = (last_value more key).or (last_value settings key) := by
  rw [last_value, last_value, last_value, List.filter_append, List.getLast?_append, Option.map_or]

theorem last_value_mem {settings : List Setting} {key text : Bytes}
    (h : last_value settings key = some text) : ∃ s ∈ settings, s.value = text := by
  obtain ⟨s, hs, rfl⟩ := Option.map_eq_some_iff.mp h
  exact ⟨s, List.mem_of_mem_filter (List.mem_of_getLast? hs), rfl⟩

structure Up (kore_strtonum : Strtonum) (instance_id file : Bytes) (entries : List Bytes)
    (app : App) : Prop where
  get : ∀ key, key ≠ bytes "debug" → key ≠ bytes "app.session" →
    config_get_str app key none = .ok (last_value (loaded file entries) key)
  value : app.value = renamed instance_id (loaded file entries)
  required : ∀ key ∈ required, (last_value (loaded file entries) key).isSome

theorem packed_of_runs {app app' : App} {log : Bytes} {entries' : List Bytes}
    (henv : ∀ env ∈ entries, 0 ∉ env)
    (hconfig : application_config kore_strtonum null_text (application_create instance_id)
      configfile (some file) = .ok (app, log))
    (hload : application_env (load_config_tree kore_strtonum) app 1 (environ entries) =
      .ok (app', entries')) :
    Packed app'.config (defaulted ((read_settings file).filterMap (stored kore_strtonum)) ++
      (settings_of actual 1 entries).filterMap (stored kore_strtonum)) ∧
      app'.value = renamed instance_id (loaded file entries) ∧ entries' = entries.map changed := by
  obtain ⟨-, hpacked, hname⟩ := application_config_inv hconfig
  rw [application_env_eq _ _ _ henv] at hload
  cases hrun : load_each (load_config_tree kore_strtonum) app (settings_of actual 1 entries) with
  | error e =>
    rw [hrun] at hload
    cases hload
  | ok final =>
    rw [hrun] at hload
    obtain ⟨rfl, rfl⟩ := Prod.mk.inj (Except.ok.inj hload)
    obtain ⟨-, hfinal, hvalue⟩ := load_from (settings_of_clean 1 henv) hpacked hrun
    refine ⟨hfinal, ?_, rfl⟩
    rw [hvalue, hname, loaded, renamed_append]

theorem up_of_runs {app app' : App} {log : Bytes} {entries' : List Bytes}
    (henv : ∀ env ∈ entries, 0 ∉ env)
    (hconfig : application_config kore_strtonum null_text (application_create instance_id)
      configfile (some file) = .ok (app, log))
    (hload : application_env (load_config_tree kore_strtonum) app 1 (environ entries) =
      .ok (app', entries')) :
    Up kore_strtonum instance_id file entries app' := by
  obtain ⟨haccepted, -, -⟩ := application_config_inv hconfig
  obtain ⟨hfinal, hvalue, -⟩ := packed_of_runs henv hconfig hload
  constructor
  · intro key hdebug hsession
    have hitems : (defaulted ((read_settings file).filterMap (stored kore_strtonum)) ++
        (settings_of actual 1 entries).filterMap (stored kore_strtonum)).filter (·.key = key) =
        ((loaded file entries).filterMap (stored kore_strtonum)).filter (·.key = key) := by
      rw [loaded, List.filterMap_append, List.filter_append, List.filter_append,
        defaulted_filter _ hdebug]
    rw [config_get_str_stored hfinal hitems hdebug hsession, Option.or_none]
  · exact hvalue
  · intro key hkey
    have hfile := haccepted.required key hkey
    rw [loaded, last_value_append, Option.isSome_or, hfile, Bool.or_true]

/-- The domain name is there whatever the buffer holds, if it is set and there is room. -/
theorem domainname_iff (copy : KoreCopy) {app : App} {domain : Option Bytes}
    (hvalue : 0 ∉ app.value) (hclean : ∀ text, domain = some text → 0 ∉ text)
    (hget : config_get_str app (bytes "app.domain") none = .ok domain) :
    (∀ buffer : Block, buffer.length = 128 →
        ∃ text, app_domainname copy app buffer = .ok (some text)) ↔
      ∃ text, domain = some text ∧ (text.head? = some 46 ∨ app.value.length < 127) := by
  constructor
  · intro h
    obtain ⟨text, htext⟩ := h (List.replicate 128 (some 0)) List.length_replicate
    cases domain with
    | none =>
      rw [app_domainname, hget] at htext
      cases htext
    | some domain =>
      refine ⟨domain, rfl, ?_⟩
      by_contra hbad
      rw [app_domainname_eq copy hget List.length_replicate hvalue (hclean domain rfl),
        if_neg hbad] at htext
      cases htext
  · rintro ⟨domain, rfl, hfits⟩ buffer hbuffer
    rw [app_domainname_eq copy hget hbuffer hvalue (hclean domain rfl), if_pos hfits]
    exact ⟨_, rfl⟩

section Up

variable {app : App}

theorem Up.domainname_iff (copy : KoreCopy) (hid : 0 ∉ instance_id)
    (henv : ∀ env ∈ entries, 0 ∉ env) (hup : Up kore_strtonum instance_id file entries app) :
    (∀ buffer : Block, buffer.length = 128 →
        ∃ text, app_domainname copy app buffer = .ok (some text)) ↔
      ∃ text, last_value (loaded file entries) (bytes "app.domain") = some text ∧
        (text.head? = some 46 ∨ (renamed instance_id (loaded file entries)).length < 127) := by
  have hclean := loaded_clean file henv
  have hvalue : 0 ∉ app.value := by
    rw [hup.value]
    exact renamed_clean hid hclean
  have hclean_domain : ∀ text, last_value (loaded file entries) (bytes "app.domain") = some text →
      0 ∉ text := by
    intro text hlast
    obtain ⟨s, hs, rfl⟩ := last_value_mem hlast
    exact (hclean s hs).2.2
  have hget := hup.get (bytes "app.domain") (by decide) (by decide)
  rw [← hup.value]
  exact ConfigSufficient.domainname_iff copy hvalue hclean_domain hget

theorem Up.complete (K : Kore) (copy : KoreCopy) (hid : 0 ∉ instance_id)
    (henv : ∀ env ∈ entries, 0 ∉ env) (hup : Up kore_strtonum instance_id file entries app)
    (h : Sufficient K copy app) : Complete K instance_id (loaded file entries) := by
  have hkey := hup.get (bytes "app.key") (by decide) (by decide)
  have hstorage := hup.get (bytes "storage") (by decide) (by decide)
  have hauth := hup.get (bytes "auth") (by decide) (by decide)
  refine ⟨(hup.domainname_iff copy hid henv).mp h.domainname, ?_, ?_, ?_⟩
  · intro text htext
    obtain ⟨text', hget, hdecode⟩ := h.key
    rw [app_key, hkey, htext] at hget
    obtain rfl := Option.some.inj (Except.ok.inj hget)
    exact hdecode
  · obtain ⟨text, hget⟩ := h.storage
    rw [app_storage, hstorage] at hget
    rw [Except.ok.inj hget]
    rfl
  · intro text htext
    apply h.auth
    rw [app_basic_auth, hauth, htext]

theorem Up.sufficient (K : Kore) (copy : KoreCopy) (hid : 0 ∉ instance_id)
    (henv : ∀ env ∈ entries, 0 ∉ env) (hup : Up kore_strtonum instance_id file entries app)
    (h : Complete K instance_id (loaded file entries)) : Sufficient K copy app := by
  have hname := hup.get (bytes "app.name") (by decide) (by decide)
  have hkind := hup.get (bytes "app.env") (by decide) (by decide)
  have hkey := hup.get (bytes "app.key") (by decide) (by decide)
  have hstorage := hup.get (bytes "storage") (by decide) (by decide)
  have hauth := hup.get (bytes "auth") (by decide) (by decide)
  have hset : ∀ key ∈ ConfigLoading.required,
      ∃ text, last_value (loaded file entries) key = some text :=
    fun key hmem => Option.isSome_iff_exists.mp (hup.required key hmem)
  constructor
  · obtain ⟨text, htext⟩ := hset (bytes "app.name") (by simp [ConfigLoading.required])
    exact ⟨text, by rw [app_name, hname, htext]⟩
  · obtain ⟨text, htext⟩ := hset (bytes "app.env") (by simp [ConfigLoading.required])
    exact ⟨text, by rw [app_environment, hkind, htext]⟩
  · exact (hup.domainname_iff copy hid henv).mpr h.domain
  · obtain ⟨text, htext⟩ := hset (bytes "app.key") (by simp [ConfigLoading.required])
    refine ⟨text, ?_, h.key text htext⟩
    rw [app_key, hkey, htext]
  · obtain ⟨text, htext⟩ := Option.isSome_iff_exists.mp h.storage
    exact ⟨text, by rw [app_storage, hstorage, htext]⟩
  · intro text htext
    rw [app_basic_auth, hauth] at htext
    exact h.auth text (Except.ok.inj htext)

end Up

theorem sufficient_iff (K : Kore) (copy : KoreCopy) {app app' : App} {log : Bytes}
    {entries' : List Bytes} (hid : 0 ∉ instance_id) (henv : ∀ env ∈ entries, 0 ∉ env)
    (hconfig : application_config kore_strtonum null_text (application_create instance_id)
      configfile (some file) = .ok (app, log))
    (hload : application_env (load_config_tree kore_strtonum) app 1 (environ entries) =
      .ok (app', entries')) :
    Sufficient K copy app' ↔ Complete K instance_id (loaded file entries) := by
  have hup := up_of_runs henv hconfig hload
  exact ⟨hup.complete K copy hid henv, hup.sufficient K copy hid henv⟩

def plain_copy : KoreCopy where
  strlcpy dst src len :=
    terminated (src.take (len - 1)) ++ dst.drop ((src.take (len - 1)).length + 1)
  strlcpy_eq _ _ _ _ _ := rfl

def whole_file : Bytes :=
  bytes "storage=s\nauth=eve:x\n[app]\nname=n\nenv=e\nkey=QQ==\ndomain=q.net\n"

theorem sufficient_whole : ∃ app log app' entries',
    application_config no_number none (application_create (bytes "ab-CDEFGH"))
        (bytes "framework.ini") (some whole_file) = .ok (app, log) ∧
      application_env (load_config_tree no_number) app 1 (environ [bytes "AYA_DEBUG=1"]) =
        .ok (app', entries') ∧
      Sufficient reference plain_copy app' := by
  have hconfig : (application_config no_number none (application_create (bytes "ab-CDEFGH"))
    (bytes "framework.ini") (some whole_file)).isOk := by decide
  obtain ⟨⟨app, log⟩, hconfig⟩ := ok_of_isOk hconfig
  have hload : (do
      let (app, _) ← application_config no_number none (application_create (bytes "ab-CDEFGH"))
        (bytes "framework.ini") (some whole_file)
      application_env (load_config_tree no_number) app 1
        (environ [bytes "AYA_DEBUG=1"])).isOk := by decide
  rw [hconfig] at hload
  obtain ⟨⟨app', entries'⟩, hload⟩ := ok_of_isOk hload
  have hcomplete : Complete reference (bytes "ab-CDEFGH")
      (loaded whole_file [bytes "AYA_DEBUG=1"]) := by
    have hkey : last_value (loaded whole_file [bytes "AYA_DEBUG=1"]) (bytes "app.key") =
        some (bytes "QQ==") := by decide
    have hauth : last_value (loaded whole_file [bytes "AYA_DEBUG=1"]) (bytes "auth") =
        some (bytes "eve:x") := by decide
    refine ⟨⟨bytes "q.net", by decide, by decide⟩, ?_, by decide, ?_⟩
    · intro text htext
      obtain rfl := Option.some.inj (hkey.symm.trans htext)
      decide
    · intro text htext
      obtain rfl := Option.some.inj (hauth.symm.trans htext)
      decide
  refine ⟨app, log, app', entries', hconfig, hload, ?_⟩
  exact (sufficient_iff reference plain_copy (by decide) (by decide) hconfig hload).mpr hcomplete

def plain_file : Bytes := bytes "storage=s\n[app]\nname=n\nenv=e\nkey=QQ==\n"

theorem accepted_without_domain :
    ¬∀ (kore_strtonum : Strtonum) (null_text : Option Bytes) (K : Kore) (copy : KoreCopy)
      (instance_id configfile file : Bytes) (entries entries' : List Bytes) (app app' : App)
      (log : Bytes), 0 ∉ instance_id → (∀ env ∈ entries, 0 ∉ env) →
      application_config kore_strtonum null_text (application_create instance_id) configfile
        (some file) = .ok (app, log) →
      application_env (load_config_tree kore_strtonum) app 1 (environ entries) =
        .ok (app', entries') →
      Sufficient K copy app' := by
  intro h
  have hok : (application_config no_number none (application_create (bytes "ab-CDEFGH"))
    (bytes "framework.ini") (some plain_file)).isOk := by decide
  obtain ⟨⟨app, log⟩, hconfig⟩ := ok_of_isOk hok
  have hget : (do
      let (app, _) ← application_config no_number none (application_create (bytes "ab-CDEFGH"))
        (bytes "framework.ini") (some plain_file)
      lift (config_get_str app (bytes "app.domain") none)) = .ok none := by decide
  rw [hconfig] at hget
  have hdomain := lift_eq_ok.mp hget
  have hsufficient := h no_number none reference plain_copy (bytes "ab-CDEFGH")
    (bytes "framework.ini") plain_file [] [] app app log (by decide) (fun _ he => nomatch he)
    hconfig rfl
  obtain ⟨text, htext⟩ :=
    hsufficient.domainname (List.replicate 128 (some 0)) List.length_replicate
  rw [app_domainname, hdomain] at htext
  cases htext

end ConfigSufficient
