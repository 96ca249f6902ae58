import Ayahesa.AppStart
import Ayahesa.ConfigOverride
import Ayahesa.ConfigQueries

/-! # Settings of a section and the rest of the configuration

Two names are looked at before the section is, so a setting of any section can change the debug
mode and the name of the instance. A run with one more setting is compared with the run without
it. -/
namespace SectionInterference

open CMemory HttpRequest SlotStore TreeStore TreeInvariant TreeLookup AppConfig AppStart
  ConfigQueries
open ConfigOverride (no_number)

def app_isdebug (app : App) : C ℤ := do
  let debug ← config_get_int app (bytes "debug") (some 0)
  return debug.getD 0

/-- Only keys of the section are answered differently. -/
structure Isolated (app app' : App) (sect : Bytes) : Prop where
  answers : ∀ key, ¬(sect ++ bytes "." <+: key) → SameAnswers app app' key
  isdebug : app_isdebug app = app_isdebug app'
  instance_name : app_instance app = app_instance app'
  storage : app_storage app = app_storage app'
  auth : app_basic_auth app = app_basic_auth app'

def debug_flag (s : Setting) : ℤ := if s.value = bytes "true" ∨ s.value = bytes "1" then 1 else 0

/-- Of two special names the setting has neither, or it is hidden: by a later setting of that
name, or by an earlier one that says the same. -/
structure Hidden (instance_id : Bytes) (before : List Setting) (s : Setting)
    (behind : List Setting) : Prop where
  debug : s.name = bytes "debug" → (∃ t ∈ behind, t.name = bytes "debug") ∨
    ∃ t, (before.filter (·.name = bytes "debug")).getLast? = some t ∧ debug_flag t = debug_flag s
  rename : s.name = bytes "instance" → (∃ t ∈ behind, t.name = bytes "instance") ∨
    renamed instance_id before = s.value

section Values

variable {kore_strtonum : Strtonum}

/-- Only settings called `debug` store something under that key. -/
theorem qualified_debug {sect name : Bytes} (h : qualified sect name = bytes "debug") :
    name = bytes "debug" := by
  unfold qualified at h
  split at h
  · have hdot : (46 : UInt8) ∈ sect ++ bytes "." ++ name := by
      simp [(by decide : bytes "." = [46])]
    rw [h] at hdot
    exact absurd hdot (by decide)
  · exact h

theorem values_debug (settings : List Setting) :
    values (settings.filterMap (stored kore_strtonum)) (bytes "debug") =
      (settings.filter (·.name = bytes "debug")).map fun s => .T_INT (debug_flag s) := by
  induction settings with
  | nil => rfl
  | cons s settings ih =>
    by_cases hdebug : s.name = bytes "debug"
    · have hs : stored kore_strtonum s = some ⟨bytes "debug", .T_INT (debug_flag s)⟩ :=
        if_pos hdebug
      rw [List.filterMap_cons_some hs, List.filter_cons_of_pos (by simpa using hdebug),
        List.map_cons, ← ih, values, List.filter_cons_of_pos (by simp)]
      rfl
    · rw [List.filter_cons_of_neg (by simpa using hdebug), ← ih]
      cases hs : stored kore_strtonum s with
      | none => rw [List.filterMap_cons_none hs]
      | some item =>
        have hne : item.key ≠ bytes "debug" := by
          rw [stored, if_neg hdebug] at hs
          split at hs
          · rw [← Option.some.inj hs]
            exact (by decide : bytes "app.session" ≠ bytes "debug")
          split at hs
          · cases hs
          · rw [← Option.some.inj hs]
            exact fun hkey => hdebug (qualified_debug hkey)
        rw [List.filterMap_cons_some hs, values, List.filter_cons_of_neg (by simpa using hne)]
        rfl

theorem stored_in_section {s : Setting} (hsect : s.sect ≠ []) (hdebug : s.name ≠ bytes "debug")
    {item : Item} (hs : stored kore_strtonum s = some item) : s.sect ++ bytes "." <+: item.key := by
  rw [stored, if_neg hdebug] at hs
  split at hs
  next hsession =>
    rw [← Option.some.inj hs, hsession.1]
    exact (by decide : bytes "app" ++ bytes "." <+: bytes "app.session")
  split at hs
  · cases hs
  · rw [← Option.some.inj hs]
    have hlen : s.sect.length ≠ 0 := fun h => hsect (List.eq_nil_of_length_eq_zero h)
    rw [qualified, if_pos hlen]
    exact List.prefix_append _ _

theorem visible_of_ints (ns : List ℤ) :
    visible (ns.map Value.T_INT) = (ns.map Value.T_INT).getLast? := by
  cases ns with
  | nil => rfl
  | cons n ns =>
    apply visible_of_uniform
    intro v hv
    obtain ⟨m, -, rfl⟩ := List.mem_map.mp hv
    rfl

theorem getLast?_insert {α : Type} (front behind : List α) (a : α) :
    (front ++ a :: behind).getLast? = (front ++ behind).getLast? ↔
      behind ≠ [] ∨ front.getLast? = some a := by
  cases behind with
  | nil => simp [eq_comm]
  | cons b behind => simp [List.getLast?_append, List.getLast?_cons]

end Values

/-! ## The name of the instance -/

/-- The name does not matter to what comes later if a later setting gives another one. -/
theorem renamed_forgets {settings : List Setting} (h : ∃ t ∈ settings, t.name = bytes "instance")
    (value value' : Bytes) : renamed value settings = renamed value' settings := by
  induction settings generalizing value value' with
  | nil =>
    obtain ⟨t, ht, -⟩ := h
    cases ht
  | cons s settings ih =>
    rw [renamed, renamed, List.foldl_cons, List.foldl_cons]
    by_cases hs : s.name = bytes "instance"
    · rw [if_pos hs, if_pos hs]
    · rw [if_neg hs, if_neg hs]
      obtain ⟨t, ht, hname⟩ := h
      rcases List.mem_cons.mp ht with rfl | ht
      · exact absurd hname hs
      · exact ih ⟨t, ht, hname⟩ value value'

theorem renamed_keeps {settings : List Setting} (h : ∀ t ∈ settings, t.name ≠ bytes "instance")
    (value : Bytes) : renamed value settings = value := by
  induction settings with
  | nil => rfl
  | cons s settings ih =>
    rw [renamed, List.foldl_cons, if_neg (h s List.mem_cons_self)]
    exact ih fun t ht => h t (List.mem_cons_of_mem s ht)

theorem renamed_insert_iff (value : Bytes) (before behind : List Setting) (s : Setting) :
    renamed value (before ++ s :: behind) = renamed value (before ++ behind) ↔
      (s.name = bytes "instance" → (∃ t ∈ behind, t.name = bytes "instance") ∨
        renamed value before = s.value) := by
  have hsplit : ∀ tail, renamed value (before ++ tail) = renamed (renamed value before) tail :=
    fun tail => List.foldl_append
  rw [hsplit, hsplit]
  by_cases hs : s.name = bytes "instance"
  · have hcons : renamed (renamed value before) (s :: behind) = renamed s.value behind := by
      rw [renamed, List.foldl_cons, if_pos hs]
      rfl
    rw [hcons]
    by_cases hlater : ∃ t ∈ behind, t.name = bytes "instance"
    · exact iff_of_true (renamed_forgets hlater _ _) fun _ => Or.inl hlater
    · have hnone : ∀ t ∈ behind, t.name ≠ bytes "instance" := by simpa using hlater
      rw [renamed_keeps hnone, renamed_keeps hnone]
      constructor
      · exact fun h _ => Or.inr h.symm
      · exact fun h => ((h hs).resolve_left hlater).symm
  · have hcons : renamed (renamed value before) (s :: behind) =
        renamed (renamed value before) behind := by
      rw [renamed, List.foldl_cons, if_neg hs]
      rfl
    exact iff_of_true hcons fun h => absurd h hs

section Insertion

variable {kore_strtonum : Strtonum} {instance_id : Bytes} {before behind : List Setting}
  {s : Setting} {app app' : App}

/-- The debug mode is the same with one more setting of that name exactly if it is hidden. -/
theorem debug_insert_iff (hs : s.name = bytes "debug") :
    visible (values ((before ++ behind).filterMap (stored kore_strtonum)) (bytes "debug")) =
        visible (values ((before ++ s :: behind).filterMap (stored kore_strtonum))
          (bytes "debug")) ↔
      (∃ t ∈ behind, t.name = bytes "debug") ∨ ∃ t,
        (before.filter (·.name = bytes "debug")).getLast? = some t ∧
          debug_flag t = debug_flag s := by
  have hints : ∀ settings : List Setting,
      visible (values (settings.filterMap (stored kore_strtonum)) (bytes "debug")) =
        ((settings.filter (·.name = bytes "debug")).map fun s =>
          Value.T_INT (debug_flag s)).getLast? := by
    intro settings
    have hflags := visible_of_ints ((settings.filter (·.name = bytes "debug")).map debug_flag)
    rw [List.map_map] at hflags
    rw [values_debug]
    exact hflags
  rw [hints, hints, List.filter_append, List.filter_append,
    List.filter_cons_of_pos (by simpa using hs), List.map_append, List.map_append, List.map_cons,
    eq_comm, getLast?_insert, List.getLast?_map]
  apply or_congr
  · simp [List.filter_eq_nil_iff]
  · simp [Option.map_eq_some_iff]

theorem values_insert {key : Bytes} (hsect : s.sect ≠ []) (hkey : ¬(s.sect ++ bytes "." <+: key))
    (hs : s.name = bytes "debug" → key ≠ bytes "debug") :
    values ((before ++ s :: behind).filterMap (stored kore_strtonum)) key =
      values ((before ++ behind).filterMap (stored kore_strtonum)) key := by
  have hnone : values ((s :: behind).filterMap (stored kore_strtonum)) key =
      values (behind.filterMap (stored kore_strtonum)) key := by
    cases hitem : stored kore_strtonum s with
    | none => rw [List.filterMap_cons_none hitem]
    | some item =>
      have hne : item.key ≠ key := by
        intro heq
        by_cases hdebug : s.name = bytes "debug"
        · rw [stored, if_pos hdebug] at hitem
          rw [← Option.some.inj hitem] at heq
          exact hs hdebug heq.symm
        · exact hkey (heq ▸ stored_in_section hsect hdebug hitem)
      rw [List.filterMap_cons_some hitem, values, List.filter_cons_of_neg (by simpa using hne)]
      rfl
  rw [List.filterMap_append, List.filterMap_append, values_append, values_append, hnone]

theorem prefix_outside {key : Bytes} (h : (46 : UInt8) ∉ key) (sect : Bytes) :
    ¬(sect ++ bytes "." <+: key) := by
  intro hstart
  exact h (hstart.subset (by simp [(by decide : bytes "." = [46])]))

/-- One more setting of a section changes the answers for keys of that section only if and only
if it is not a visible `debug` or `instance`. -/
theorem section_isolated_iff (hclean : ∀ t ∈ before ++ s :: behind, Clean t)
    (hsect : s.sect ≠ [])
    (hload : load_settings kore_strtonum (application_create instance_id) (before ++ behind) =
      .ok app)
    (hload' : load_settings kore_strtonum (application_create instance_id)
      (before ++ s :: behind) = .ok app') :
    Isolated app app' s.sect ↔ Hidden instance_id before s behind := by
  have hclean₀ : ∀ t ∈ before ++ behind, Clean t := by
    intro t ht
    apply hclean t
    rcases List.mem_append.mp ht with ht | ht
    · exact List.mem_append_left _ ht
    · exact List.mem_append_right _ (List.mem_cons_of_mem s ht)
  obtain ⟨-, hpacked, hvalue⟩ := load_from hclean₀ (packed_fresh T_FLAG_READONLY) hload
  obtain ⟨-, hpacked', hvalue'⟩ := load_from hclean (packed_fresh T_FLAG_READONLY) hload'
  rw [List.nil_append] at hpacked hpacked'
  have hsame : ∀ key, SameAnswers app app' key ↔
      visible (values ((before ++ behind).filterMap (stored kore_strtonum)) key) =
        visible (values ((before ++ s :: behind).filterMap (stored kore_strtonum)) key) :=
    fun _ => same_answers_iff hpacked hpacked' (stored_readable _ _) (stored_readable _ _)
  have hname : app_instance app = app_instance app' ↔
      renamed instance_id (before ++ s :: behind) = renamed instance_id (before ++ behind) := by
    rw [app_instance, app_instance, hvalue, hvalue', eq_comm]
    rfl
  rw [renamed_insert_iff] at hname
  constructor
  · intro h
    refine ⟨fun hs => ?_, hname.mp h.instance_name⟩
    have hdebug := h.answers (bytes "debug") (prefix_outside (by decide) s.sect)
    exact (debug_insert_iff hs).mp ((hsame _).mp hdebug)
  · intro h
    have hanswers : ∀ key, ¬(s.sect ++ bytes "." <+: key) → SameAnswers app app' key := by
      intro key hkey
      apply (hsame key).mpr
      by_cases hs : s.name = bytes "debug" ∧ key = bytes "debug"
      · obtain ⟨hs, rfl⟩ := hs
        exact (debug_insert_iff hs).mpr (h.debug hs)
      · rw [values_insert hsect hkey fun hdebug heq => hs ⟨hdebug, heq⟩]
    have hdebug := hanswers (bytes "debug") (prefix_outside (by decide) s.sect)
    have hstorage := hanswers (bytes "storage") (prefix_outside (by decide) s.sect)
    have hauth := hanswers (bytes "auth") (prefix_outside (by decide) s.sect)
    refine ⟨hanswers, ?_, hname.mpr h.rename, hstorage.str none, hauth.str none⟩
    rw [app_isdebug, app_isdebug, hdebug.int]

end Insertion

def first_settings : List Setting := [⟨[], bytes "storage", bytes "s", 1⟩]

def mail_host : Setting := ⟨bytes "mail", bytes "host", bytes "h", 2⟩

def mail_debug : Setting := ⟨bytes "mail", bytes "debug", bytes "true", 2⟩

theorem section_isolated_host : ∃ app app',
    load_settings no_number (application_create (bytes "ab-CDEFGH"))
        (first_settings ++ []) = .ok app ∧
      load_settings no_number (application_create (bytes "ab-CDEFGH"))
        (first_settings ++ [mail_host]) = .ok app' ∧
      Isolated app app' (bytes "mail") := by
  have hok : (load_settings no_number (application_create (bytes "ab-CDEFGH"))
    (first_settings ++ [])).isOk := by decide
  have hok' : (load_settings no_number (application_create (bytes "ab-CDEFGH"))
    (first_settings ++ [mail_host])).isOk := by decide
  obtain ⟨app, hload⟩ := ok_of_isOk hok
  obtain ⟨app', hload'⟩ := ok_of_isOk hok'
  refine ⟨app, app', hload, hload', ?_⟩
  refine (section_isolated_iff (s := mail_host) (by decide) (by decide) hload hload').mpr ?_
  exact ⟨fun h => absurd h (by decide), fun h => absurd h (by decide)⟩

/-- A `debug` of the section `mail` turns on the debug mode of the application. -/
theorem section_sets_debug :
    ¬∀ (kore_strtonum : Strtonum) (instance_id : Bytes) (before behind : List Setting)
      (s : Setting) (app app' : App), (∀ t ∈ before ++ s :: behind, Clean t) → s.sect ≠ [] →
      load_settings kore_strtonum (application_create instance_id) (before ++ behind) = .ok app →
      load_settings kore_strtonum (application_create instance_id) (before ++ s :: behind) =
        .ok app' →
      Isolated app app' s.sect := by
  intro h
  have hok : (load_settings no_number (application_create (bytes "ab-CDEFGH"))
    (first_settings ++ [])).isOk := by decide
  have hok' : (load_settings no_number (application_create (bytes "ab-CDEFGH"))
    (first_settings ++ [mail_debug])).isOk := by decide
  obtain ⟨app, hload⟩ := ok_of_isOk hok
  obtain ⟨app', hload'⟩ := ok_of_isOk hok'
  have hoff : (load_settings no_number (application_create (bytes "ab-CDEFGH"))
    (first_settings ++ []) >>= fun app => lift (app_isdebug app)) = .ok 0 := by decide
  have hon : (load_settings no_number (application_create (bytes "ab-CDEFGH"))
    (first_settings ++ [mail_debug]) >>= fun app => lift (app_isdebug app)) = .ok 1 := by decide
  rw [hload] at hoff
  rw [hload'] at hon
  have hisolated := h _ _ _ _ _ app app' (by decide) (by decide) hload hload'
  have hsame := hisolated.isdebug
  rw [lift_eq_ok.mp hoff, lift_eq_ok.mp hon] at hsame
  cases hsame

end SectionInterference
