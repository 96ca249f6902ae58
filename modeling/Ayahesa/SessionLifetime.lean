import Ayahesa.ConfigQueries
import Ayahesa.ConfigSufficient
import Ayahesa.JwtToken

/-! # The lifetime of a session

The bounds go to the number parser, whose error nobody looks at, and a string under the same key
ends the search for the number. -/
namespace SessionLifetime

open CMemory HttpRequest SlotStore TreeStore TreeInvariant AppConfig ConfigOverride
  ConfigEnvironment IniCalls AppStart ConfigLoading ConfigSufficient ConfigQueries
open JwtToken (Library Cuuid Jwt generate_payload jwt_token_new)
open TreeLookup (Typed int?_typed)

def app_session_lifetime (app : App) : C ℤ := do
  let app_session_lifetime ← config_get_int app (bytes "app.session") (some 0)
  return app_session_lifetime.getD 0

/-- A number within the bounds, or 0 and the error flag. -/
def Documented (kore_strtonum : Strtonum) : Prop :=
  ∀ text base low high, if (kore_strtonum text base low high).2
    then (kore_strtonum text base low high).1 = 0
    else low ≤ (kore_strtonum text base low high).1 ∧ (kore_strtonum text base low high).1 ≤ high

/-- The lifetime is in range, and so is the time that every token is valid for. -/
def InRange (lifetime : ℤ) : Prop :=
  (60 ≤ lifetime ∧ lifetime ≤ 86400) ∧
    ∀ (E : Library) (now : ℤ) (jti : Cuuid) (jwt jwt' : Jwt) (token : Bytes),
      E.app_session_lifetime = lifetime → jwt_token_new E now jti jwt = .ok (token, jwt') →
      jwt'.iat + 60 ≤ jwt'.exp ∧ jwt'.exp ≤ jwt'.iat + 86400

/-- What a setting puts under `app.session`: a number made of the text, or a string. -/
def session_setting (s : Setting) : Option (Option Bytes) :=
  if s.sect = bytes "app" ∧ s.name = bytes "session" then some (some s.value)
  else if Sets (bytes "app.session") s then some none
  else none

/-- The last number of the session before the first string under its key. -/
def lifetime_text (settings : List Setting) : Option Bytes :=
  ((settings.filterMap session_setting).takeWhile Option.isSome).getLast?.join

section Lifetime

variable {kore_strtonum : Strtonum}

theorem stored_session {s : Setting} (h : s.sect = bytes "app" ∧ s.name = bytes "session") :
    stored kore_strtonum s =
      some ⟨bytes "app.session", .T_INT (kore_strtonum s.value 10 60 86400).1⟩ := by
  have hdebug : s.name ≠ bytes "debug" := by
    rw [h.2]
    decide
  rw [stored, if_neg hdebug, if_pos h]

theorem stored_elsewhere {s : Setting} (h : session_setting s = none) {item : Item}
    (hs : stored kore_strtonum s = some item) : item.key ≠ bytes "app.session" := by
  unfold session_setting at h
  by_cases hsession : s.sect = bytes "app" ∧ s.name = bytes "session"
  · rw [if_pos hsession] at h
    cases h
  rw [if_neg hsession] at h
  by_cases hsets : Sets (bytes "app.session") s
  · rw [if_pos hsets] at h
    cases h
  unfold stored at hs
  by_cases hdebug : s.name = bytes "debug"
  · rw [if_pos hdebug] at hs
    rw [← Option.some.inj hs]
    exact (by decide : bytes "debug" ≠ bytes "app.session")
  rw [if_neg hdebug, if_neg hsession] at hs
  by_cases hinst : s.name = bytes "instance"
  · rw [if_pos hinst] at hs
    cases hs
  rw [if_neg hinst] at hs
  rw [← Option.some.inj hs]
  exact fun hkey => hsets ⟨hdebug, hinst, hsession, hkey⟩

theorem values_session (settings : List Setting) :
    (values (settings.filterMap (stored kore_strtonum)) (bytes "app.session")).map int? =
      (settings.filterMap session_setting).map
        (Option.map fun text => (kore_strtonum text 10 60 86400).1) := by
  induction settings with
  | nil => rfl
  | cons s settings ih =>
    by_cases hsession : s.sect = bytes "app" ∧ s.name = bytes "session"
    · have hhead : session_setting s = some (some s.value) := if_pos hsession
      rw [List.filterMap_cons_some (stored_session hsession), List.filterMap_cons_some hhead,
        List.map_cons, ← ih, values, List.filter_cons_of_pos (by simp)]
      rfl
    by_cases hsets : Sets (bytes "app.session") s
    · have hhead : session_setting s = some none := by
        rw [session_setting, if_neg hsession, if_pos hsets]
      rw [List.filterMap_cons_some (stored_sets hsets), List.filterMap_cons_some hhead,
        List.map_cons, ← ih, values, List.filter_cons_of_pos (by simp)]
      rfl
    have hhead : session_setting s = none := by
      rw [session_setting, if_neg hsession, if_neg hsets]
    rw [List.filterMap_cons_none hhead, ← ih]
    cases hs : stored kore_strtonum s with
    | none => rw [List.filterMap_cons_none hs]
    | some item =>
      have hne := stored_elsewhere hhead hs
      rw [List.filterMap_cons_some hs, values, List.filter_cons_of_neg (by simpa using hne)]
      rfl

/-- The query sees the number of the session that counts, or keeps its default. -/
theorem lifetime_eq {app : App} {items : List Item} {settings : List Setting}
    (h : Packed app.config items)
    (hvalues : values items (bytes "app.session") =
      values (settings.filterMap (stored kore_strtonum)) (bytes "app.session")) :
    app_session_lifetime app =
      .ok (((lifetime_text settings).map fun text =>
        (kore_strtonum text 10 60 86400).1).getD 0) := by
  have hselect : ∀ n : Option ℤ, (id n).isSome = n.isSome := fun _ => rfl
  have hlookup : lookup (fun _ => true) int? (values items (bytes "app.session")) (some 0) =
      ((lifetime_text settings).map fun text =>
        (kore_strtonum text 10 60 86400).1).or (some 0) := by
    have hmap := @lookup_map (Option ℤ) ℤ (fun _ => true) id Value int?
      (values items (bytes "app.session")) (some 0)
    rw [Function.id_comp] at hmap
    refine hmap.symm.trans ?_
    rw [lookup_takeWhile hselect, hvalues, values_session, List.takeWhile_map, List.getLast?_map,
      lifetime_text]
    have hsome : (Option.isSome ∘ Option.map fun text => (kore_strtonum text 10 60 86400).1) =
        Option.isSome := funext fun text => Option.isSome_map
    rw [hsome]
    rcases ((settings.filterMap session_setting).takeWhile Option.isSome).getLast? with
      _ | _ | text <;> rfl
  have hread : config_get_int app (bytes "app.session") (some 0) =
      .ok (lookup (fun _ => true) int? (values items (bytes "app.session")) (some 0)) := by
    rw [config_get_int_eq h, lookup_leading int?_typed]
    rfl
  simp only [app_session_lifetime, hread, hlookup, bind, Except.bind, pure, Except.pure]
  cases (lifetime_text settings).map fun text => (kore_strtonum text 10 60 86400).1 <;> rfl

end Lifetime

theorem jwt_token_new_times {E : Library} {now : ℤ} {jti : Cuuid} {jwt jwt' : Jwt} {token : Bytes}
    (h : jwt_token_new E now jti jwt = .ok (token, jwt')) :
    jwt'.iat = now ∧ jwt'.exp = now + E.app_session_lifetime := by
  obtain ⟨raw, -, h⟩ := bind_ok h
  obtain ⟨⟨encoded, len, completed⟩, hgen, h⟩ := bind_ok h
  obtain ⟨expire_at, hexp, hgen⟩ := bind_ok hgen
  obtain ⟨issuer, -, hgen⟩ := bind_ok hgen
  obtain ⟨sub, -, hgen⟩ := bind_ok hgen
  obtain ⟨aud, -, hgen⟩ := bind_ok hgen
  obtain ⟨written, -, hgen⟩ := bind_ok hgen
  obtain ⟨buffer, -, hgen⟩ := bind_ok hgen
  obtain ⟨payload, -, h⟩ := bind_ok h
  obtain ⟨data, -, h⟩ := bind_ok h
  obtain ⟨signed, -, h⟩ := bind_ok h
  obtain ⟨signature, -, h⟩ := bind_ok h
  obtain ⟨out, -, h⟩ := bind_ok h
  obtain ⟨text, -, h⟩ := bind_ok h
  obtain rfl := (Prod.mk.inj (Except.ok.inj h)).2
  obtain rfl := (Prod.mk.inj (Prod.mk.inj (Except.ok.inj hgen)).2).2
  exact ⟨rfl, long_long_ok hexp⟩

theorem in_range_iff {lifetime : ℤ} : InRange lifetime ↔ 60 ≤ lifetime ∧ lifetime ≤ 86400 := by
  refine ⟨And.left, fun h => ⟨h, ?_⟩⟩
  rintro E now jti jwt jwt' token rfl htoken
  obtain ⟨hiat, hexp⟩ := jwt_token_new_times htoken
  omega

section Loading

variable {kore_strtonum : Strtonum} {null_text : Option Bytes}
  {instance_id configfile file : Bytes} {entries entries' : List Bytes} {app app' : App}
  {log : Bytes}

/-- The lifetime is in range if and only if there is a number of the session in front of every
string under its key and the last of these is one that the number parser accepts. -/
theorem session_lifetime_iff (hstrtonum : Documented kore_strtonum)
    (henv : ∀ env ∈ entries, 0 ∉ env)
    (hconfig : application_config kore_strtonum null_text (application_create instance_id)
      configfile (some file) = .ok (app, log))
    (hload : application_env (load_config_tree kore_strtonum) app 1 (environ entries) =
      .ok (app', entries')) :
    (∃ lifetime, app_session_lifetime app' = .ok lifetime ∧ InRange lifetime) ↔
      ∃ text, lifetime_text (loaded file entries) = some text ∧
        (kore_strtonum text 10 60 86400).2 = false := by
  have hpacked := (packed_of_runs henv hconfig hload).1
  have hvalues : values (defaulted ((read_settings file).filterMap (stored kore_strtonum)) ++
      (settings_of actual 1 entries).filterMap (stored kore_strtonum)) (bytes "app.session") =
      values ((loaded file entries).filterMap (stored kore_strtonum)) (bytes "app.session") := by
    rw [loaded, List.filterMap_append, values_append, values_append, values, values,
      defaulted_filter _ (by decide)]
    rfl
  have hlifetime := lifetime_eq hpacked hvalues
  cases htext : lifetime_text (loaded file entries) with
  | none =>
    rw [htext] at hlifetime
    apply iff_of_false
    · rintro ⟨lifetime, hget, hrange⟩
      obtain rfl := Except.ok.inj (hlifetime.symm.trans hget)
      have hlow := hrange.1.1
      rw [Option.map_none, Option.getD_none] at hlow
      exact absurd hlow (by decide)
    · rintro ⟨text, h, -⟩
      cases h
  | some text =>
    rw [htext] at hlifetime
    have hdoc := hstrtonum text 10 60 86400
    constructor
    · rintro ⟨lifetime, hget, hrange⟩
      obtain rfl := Except.ok.inj (hlifetime.symm.trans hget)
      refine ⟨text, rfl, ?_⟩
      by_contra herr
      rw [if_pos (Bool.eq_true_of_not_eq_false herr)] at hdoc
      have hlow := hrange.1.1
      rw [Option.map_some, Option.getD_some, hdoc] at hlow
      exact absurd hlow (by decide)
    · rintro ⟨text', h, haccepted⟩
      obtain rfl := Option.some.inj h
      rw [haccepted, if_neg Bool.false_ne_true] at hdoc
      exact ⟨_, hlifetime, in_range_iff.mpr hdoc⟩

end Loading

def hour : Strtonum := fun text _ low high =>
  if text = bytes "3600" ∧ low ≤ 3600 ∧ 3600 ≤ high then (3600, false) else (0, true)

theorem hour_documented : Documented hour := by
  intro text base low high
  unfold hour
  by_cases h : text = bytes "3600" ∧ low ≤ 3600 ∧ 3600 ≤ high
  · simp only [if_pos h, Bool.false_eq_true, if_false]
    exact h.2
  · simp only [if_neg h, if_true]

def session_file : Bytes := bytes "storage=s\n[app]\nname=n\nenv=e\nkey=QQ==\nsession=3600\n"

theorem session_lifetime_hour : ∃ app log app' entries',
    application_config hour none (application_create (bytes "ab-CDEFGH"))
        (bytes "framework.ini") (some session_file) = .ok (app, log) ∧
      application_env (load_config_tree hour) app 1 (environ [bytes "AYA_DEBUG=1"]) =
        .ok (app', entries') ∧
      ∃ lifetime, app_session_lifetime app' = .ok lifetime ∧ InRange lifetime := by
  have hconfig : (application_config hour none (application_create (bytes "ab-CDEFGH"))
    (bytes "framework.ini") (some session_file)).isOk := by decide
  obtain ⟨⟨app, log⟩, hconfig⟩ := ok_of_isOk hconfig
  have hload : (application_config hour none (application_create (bytes "ab-CDEFGH"))
      (bytes "framework.ini") (some session_file) >>= fun run =>
        application_env (load_config_tree hour) run.1 1 (environ [bytes "AYA_DEBUG=1"])).isOk := by
    decide
  rw [hconfig] at hload
  obtain ⟨⟨app', entries'⟩, hload⟩ := ok_of_isOk hload
  refine ⟨app, log, app', entries', hconfig, hload, ?_⟩
  exact (session_lifetime_iff hour_documented (by decide) hconfig hload).mpr
    ⟨bytes "3600", by decide, by decide⟩

/-- A file without a session: tokens expire when they are issued. -/
theorem session_missing :
    ¬∀ (kore_strtonum : Strtonum) (null_text : Option Bytes) (instance_id configfile file : Bytes)
      (entries entries' : List Bytes) (app app' : App) (log : Bytes),
      Documented kore_strtonum → (∀ env ∈ entries, 0 ∉ env) →
      application_config kore_strtonum null_text (application_create instance_id) configfile
        (some file) = .ok (app, log) →
      application_env (load_config_tree kore_strtonum) app 1 (environ entries) =
        .ok (app', entries') →
      ∃ lifetime, app_session_lifetime app' = .ok lifetime ∧ InRange lifetime := by
  intro h
  have hok : (application_config hour none (application_create (bytes "ab-CDEFGH"))
    (bytes "framework.ini") (some plain_file)).isOk := by decide
  obtain ⟨⟨app, log⟩, hconfig⟩ := ok_of_isOk hok
  have hget : (application_config hour none (application_create (bytes "ab-CDEFGH"))
      (bytes "framework.ini") (some plain_file) >>= fun run =>
        lift (app_session_lifetime run.1)) = .ok 0 := by decide
  rw [hconfig] at hget
  have hzero := lift_eq_ok.mp hget
  obtain ⟨lifetime, hlifetime, hrange⟩ := h hour none (bytes "ab-CDEFGH") (bytes "framework.ini")
    plain_file [] [] app app log hour_documented (fun _ he => nomatch he) hconfig rfl
  obtain rfl := Except.ok.inj (hzero.symm.trans hlifetime)
  exact absurd hrange.1.1 (by decide)

end SessionLifetime
