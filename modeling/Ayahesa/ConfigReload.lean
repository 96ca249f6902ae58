import Ayahesa.ConfigQueries
import Ayahesa.ConfigSufficient

/-! # Loading the module twice in one process

The configuration is built anew on every load, but the entries of the environment are the
process's own: the first load has cut them, and the second one finds no setting in them. -/
namespace ConfigReload

open CMemory CompatStrings HttpRequest TreeInvariant AppConfig ConfigEnvironment IniCalls AppStart
  ConfigLoading ConfigSufficient ConfigQueries ConfigOverride

structure Process where
  root_app : Option App
  environ : List Bytes
  deriving DecidableEq, Repr

inductive ModuleState where
  | KORE_MODULE_LOAD
  | KORE_MODULE_UNLOAD
  deriving DecidableEq, Repr

/-- `instance_id` is the generated name. Behind an unload the module's static data is
initialised again. -/
def aya_init (kore_strtonum : Strtonum) (null_text : Option Bytes) (CONFIG : Bytes)
    (file : Option Bytes) (instance_id : Bytes) (process : Process) :
    ModuleState → Proc Process
  | .KORE_MODULE_LOAD =>
    if process.root_app.isSome then .error (.abort [])
    else do
      let root_app := application_create instance_id
      let (root_app, _) ← application_config kore_strtonum null_text root_app CONFIG file
      let (root_app, environ) ←
        application_env (load_config_tree kore_strtonum) root_app 1 process.environ
      return ⟨some root_app, environ⟩
  | .KORE_MODULE_UNLOAD => return { process with root_app := none }

def reload (kore_strtonum : Strtonum) (null_text : Option Bytes) (CONFIG : Bytes)
    (file : Option Bytes) (instance_id : Bytes) (process : Process) : Proc Process := do
  let process ← aya_init kore_strtonum null_text CONFIG file instance_id process
    .KORE_MODULE_UNLOAD
  aya_init kore_strtonum null_text CONFIG file instance_id process .KORE_MODULE_LOAD

/-! ## Entries that were read once -/

theorem strncmp_append (text d : Bytes) : strncmp text.length text (text ++ d) = .ok 0 := by
  induction text with
  | nil => rfl
  | cons c text ih =>
    rw [List.length_cons, List.cons_append, strncmp, if_neg (not_not.mpr rfl), ih, ite_self]

/-- In place of the `=` stands a NUL, and in front of it there is no other. -/
theorem changed_cut {env N V : Bytes} (h : 0 ∉ env) (ha : assignment env = some (N, V)) :
    ∃ x rest, changed env = bytes "AYA_" ++ (x ++ 0 :: rest) ∧ 61 ∉ x ∧ 0 ∉ x := by
  have hN : 61 ∉ N ∧ 0 ∉ N := by
    unfold assignment at ha
    split at ha
    · have hdrop : 0 ∉ env.drop 4 := fun h0 => h (List.mem_of_mem_drop h0)
      rcases cut_cases 61 (env.drop 4) with ⟨-, hnone⟩ | ⟨x, y, hsplit, hx, hsome⟩
      · rw [hnone] at ha
        cases ha
      · rw [hsome] at ha
        cases ha
        exact ⟨hx, fun h0 => hdrop (by rw [hsplit]; exact List.mem_append_left _ h0)⟩
    · cases ha
  have hlower : ∀ text : Bytes, (∀ c ∈ text, c ∈ N) → 61 ∉ strtolower text ∧
      0 ∉ strtolower text := fun text hsub =>
    ⟨strtolower_free (by decide) fun hmem => hN.1 (hsub 61 hmem),
      strtolower_free (by decide) fun hmem => hN.2 (hsub 0 hmem)⟩
  rw [changed, ha]
  rcases cut_cases 95 N with ⟨-, hcut⟩ | ⟨S, R, hsplit, -, hcut⟩
  · obtain ⟨h61, h0⟩ := hlower N fun _ hc => hc
    simp only [hcut]
    cases cut 95 V with
    | some UW => exact ⟨strtolower N, _, rfl, h61, h0⟩
    | none => exact ⟨strtolower N, _, rfl, h61, h0⟩
  · obtain ⟨h61, h0⟩ := hlower S fun c hc => hsplit ▸ List.mem_append_left _ hc
    simp only [hcut]
    exact ⟨strtolower S, _, rfl, h61, h0⟩

/-- The second time an entry sets nothing and stays as it is. -/
theorem env_setting_changed {env : Bytes} (h : 0 ∉ env) :
    env_setting (changed env) = .ok (none, changed env) := by
  cases ha : assignment env with
  | none =>
    have hread := env_setting_eq 0 h
    have hchanged : changed env = env ++ [0] := by rw [changed, ha]
    rw [actual, ha, hchanged] at hread
    rw [hchanged]
    exact hread
  | some NV =>
    obtain ⟨x, rest, hchanged, h61, h0⟩ := changed_cut h ha
    have hlast := @strchr_ended (bytes "AYA_") x 61 rest h61 h0 (by decide)
    obtain ⟨sect, hsect⟩ : ∃ sect, strchr (bytes "AYA_" ++ (x ++ 0 :: rest)) 4 95 = .ok sect := by
      rcases strchr_cases (bytes "AYA_") (x ++ 0 :: rest) (c := 95) (by decide) with
        ⟨text, -, -, -, -, hs⟩ | ⟨-, -, -, -, -, hs⟩ | ⟨-, hz, -⟩
      · exact ⟨_, hs⟩
      · exact ⟨_, hs⟩
      · exact absurd (List.mem_append_right x List.mem_cons_self) hz
    have hlen : (bytes "AYA_").length = 4 := by decide
    have hprefix := strncmp_append (bytes "AYA_") (x ++ 0 :: rest)
    rw [hlen] at hlast hprefix
    rw [hchanged]
    simp only [env_setting, hprefix, hsect, hlast, bind, Except.bind]
    rfl

theorem application_env_changed {σ : Type} (load : Loader σ) (app : σ) (i : ℕ)
    {entries : List Bytes} (h : ∀ env ∈ entries, 0 ∉ env) :
    application_env load app i (entries.map changed) = .ok (app, entries.map changed) := by
  induction entries generalizing i with
  | nil => rfl
  | cons env rest ih =>
    have ih := ih (i + 1) fun e he => h e (List.mem_cons_of_mem env he)
    rw [List.map_cons, application_env, env_setting_changed (h env List.mem_cons_self)]
    simp only [lift_ok, bind, Except.bind, ih]
    rfl

theorem changed_eq_iff {env : Bytes} (h : 0 ∉ env) :
    changed env = env ++ [0] ↔ assignment env = none := by
  cases ha : assignment env with
  | none => exact iff_of_true (by rw [changed, ha]) rfl
  | some NV =>
    refine iff_of_false (fun heq => ?_) (Option.some_ne_none NV)
    obtain ⟨x, rest, hchanged, h61, h0⟩ := changed_cut h ha
    have hstring := congrArg c_string (hchanged.symm.trans heq)
    have hclean : 0 ∉ bytes "AYA_" ++ x := by
      rw [List.mem_append]
      rintro (hp | hx)
      · exact absurd hp (by decide)
      · exact h0 hx
    rw [← List.append_assoc, c_string_append_zero, c_string_append_zero, c_string_of_clean hclean,
      c_string_of_clean h] at hstring
    -- the `=` of the assignment was in the entry
    unfold assignment at ha
    split at ha
    · rcases cut_cases 61 (env.drop 4) with ⟨-, hnone⟩ | ⟨N, V, hsplit, -⟩
      · rw [hnone] at ha
        cases ha
      · have hmem : (61 : UInt8) ∈ env := by
          apply List.mem_of_mem_drop (i := 4)
          rw [hsplit]
          exact List.mem_append_right N List.mem_cons_self
        rw [← hstring, List.mem_append] at hmem
        rcases hmem with hp | hx
        · exact absurd hp (by decide)
        · exact h61 hx
    · cases ha

/-! ## The second load -/

section Reload

variable {kore_strtonum : Strtonum} {null_text : Option Bytes}
  {CONFIG file id₁ id₂ : Bytes} {entries environ₁ : List Bytes} {app : App}

def file_items (kore_strtonum : Strtonum) (file : Bytes) : List Item :=
  defaulted ((read_settings file).filterMap (stored kore_strtonum))

def environment_items (kore_strtonum : Strtonum) (entries : List Bytes) : List Item :=
  (settings_of actual 1 entries).filterMap (stored kore_strtonum)

theorem load_inv (h : aya_init kore_strtonum null_text CONFIG (some file) id₁
      ⟨none, environ entries⟩ .KORE_MODULE_LOAD = .ok ⟨some app, environ₁⟩) :
    ∃ configured log, application_config kore_strtonum null_text (application_create id₁) CONFIG
        (some file) = .ok (configured, log) ∧
      application_env (load_config_tree kore_strtonum) configured 1 (environ entries) =
        .ok (app, environ₁) := by
  obtain ⟨⟨configured, log⟩, hconfig, h⟩ := bind_ok h
  obtain ⟨⟨final, left⟩, henv, h⟩ := bind_ok h
  cases h
  exact ⟨configured, log, hconfig, henv⟩

/-- The second load reads the file again and takes nothing from the environment. -/
theorem reload_eq (CONFIG id₂ : Bytes) (app : App) (henv : ∀ env ∈ entries, 0 ∉ env)
    (haccepted : Accepted kore_strtonum null_text (read_settings file)) :
    ∃ app', reload kore_strtonum null_text CONFIG (some file) id₂
        ⟨some app, entries.map changed⟩ = .ok ⟨some app', entries.map changed⟩ ∧
      Packed app'.config (file_items kore_strtonum file) := by
  obtain ⟨app', log, hconfig⟩ : ∃ app' log, application_config kore_strtonum null_text
      (application_create id₂) CONFIG (some file) = .ok (app', log) :=
    application_config_ok haccepted
  obtain ⟨-, hpacked, -⟩ := application_config_inv hconfig
  refine ⟨app', ?_, hpacked⟩
  have hagain := application_env_changed (load_config_tree kore_strtonum) app' 1 henv
  simp only [reload, aya_init, bind, Except.bind, pure, Except.pure, Option.isSome_none,
    Bool.false_eq_true, if_false, hconfig, hagain]

theorem defaulted_readable {items : List Item} (h : Readable items) :
    Readable (defaulted items) := by
  rw [defaulted]
  split
  · exact h
  · intro item hitem
    rcases List.mem_append.mp hitem with hitem | hitem
    · exact h item hitem
    · rw [List.mem_singleton.mp hitem]
      intro hnull
      cases hnull

/-- Behind a reload every query is answered as before if and only if for every key what the
environment adds is not seen behind what the file sets; and the entries are as before if and
only if none of them is an assignment of the application. -/
theorem reload_same_iff (henv : ∀ env ∈ entries, 0 ∉ env)
    (hload : aya_init kore_strtonum null_text CONFIG (some file) id₁ ⟨none, environ entries⟩
      .KORE_MODULE_LOAD = .ok ⟨some app, environ₁⟩) :
    ((∃ app' environ₂, reload kore_strtonum null_text CONFIG (some file) id₂
        ⟨some app, environ₁⟩ = .ok ⟨some app', environ₂⟩ ∧ ∀ key, SameAnswers app app' key) ↔
      ∀ key, Unmoved (values (file_items kore_strtonum file) key)
        (values (environment_items kore_strtonum entries) key)) ∧
    (environ₁ = environ entries ↔ ∀ env ∈ entries, assignment env = none) := by
  obtain ⟨configured, log, hconfig, hread⟩ := load_inv hload
  obtain ⟨haccepted, -, -⟩ := application_config_inv hconfig
  obtain ⟨hpacked, -, rfl⟩ := packed_of_runs henv hconfig hread
  obtain ⟨app', hreload, hpacked'⟩ := reload_eq CONFIG id₂ app henv haccepted
  have hfile := defaulted_readable (stored_readable kore_strtonum (read_settings file))
  have hboth : Readable (file_items kore_strtonum file ++
      environment_items kore_strtonum entries) := by
    intro item hitem
    rcases List.mem_append.mp hitem with hitem | hitem
    · exact hfile item hitem
    · exact stored_readable kore_strtonum _ item hitem
  have hsame : (∀ key, SameAnswers app app' key) ↔
      ∀ key, Unmoved (values (file_items kore_strtonum file) key)
        (values (environment_items kore_strtonum entries) key) := by
    apply forall_congr'
    intro key
    rw [same_answers_iff hpacked hpacked' hboth hfile, ← visible_append_iff, ← values_append]
    rfl
  constructor
  · rw [← hsame]
    constructor
    · rintro ⟨other, environ₂, hother, hanswers⟩
      obtain ⟨hroot, -⟩ := Process.mk.inj (Except.ok.inj (hreload.symm.trans hother))
      obtain rfl := Option.some.inj hroot
      exact hanswers
    · exact fun hanswers => ⟨app', _, hreload, hanswers⟩
  · rw [environ, List.map_inj_left]
    apply forall_congr'
    intro env
    constructor
    · exact fun h hmem => (changed_eq_iff (henv env hmem)).mp (h hmem)
    · exact fun h hmem => (changed_eq_iff (henv env hmem)).mpr (h hmem)

end Reload

theorem plain_unmoved (key : Bytes) : Unmoved (values (file_items no_number plain_file) key)
    (values (environment_items no_number [bytes "AYA_APP_NAME=n"]) key) := by
  have hitems : environment_items no_number [bytes "AYA_APP_NAME=n"] =
      [⟨bytes "app.name", .T_STRING (bytes "n")⟩] := by decide
  rw [hitems]
  by_cases hkey : bytes "app.name" = key
  · subst hkey
    have hfile : values (file_items no_number plain_file) (bytes "app.name") =
        [.T_STRING (bytes "n")] := by decide
    rw [hfile]
    exact Or.inr fun last h => h
  · have hnone : values [⟨bytes "app.name", .T_STRING (bytes "n")⟩] key = [] := by
      rw [values, List.filter_cons_of_neg (by simpa using hkey)]
      rfl
    rw [hnone]
    exact unmoved_nil _

/-- The environment says what the file says. -/
theorem reload_same_name : ∃ app environ₁ app' environ₂,
    aya_init no_number none (bytes "framework.ini") (some plain_file) (bytes "ab-CDEFGH")
        ⟨none, environ [bytes "AYA_APP_NAME=n"]⟩ .KORE_MODULE_LOAD = .ok ⟨some app, environ₁⟩ ∧
      reload no_number none (bytes "framework.ini") (some plain_file) (bytes "cd-EFGHIJ")
        ⟨some app, environ₁⟩ = .ok ⟨some app', environ₂⟩ ∧
      (∀ key, SameAnswers app app' key) ∧ environ₁ ≠ environ [bytes "AYA_APP_NAME=n"] := by
  have hok : (aya_init no_number none (bytes "framework.ini") (some plain_file)
    (bytes "ab-CDEFGH") ⟨none, environ [bytes "AYA_APP_NAME=n"]⟩ .KORE_MODULE_LOAD).isOk := by
    decide
  obtain ⟨⟨root, environ₁⟩, hload⟩ := ok_of_isOk hok
  have hroot : (aya_init no_number none (bytes "framework.ini") (some plain_file)
      (bytes "ab-CDEFGH") ⟨none, environ [bytes "AYA_APP_NAME=n"]⟩ .KORE_MODULE_LOAD).map
        (fun process => process.root_app.isSome) = .ok true := by decide
  rw [hload] at hroot
  obtain ⟨app, rfl⟩ := Option.isSome_iff_exists.mp (Except.ok.inj hroot)
  have hclean : ∀ env ∈ [bytes "AYA_APP_NAME=n"], 0 ∉ env := by decide
  obtain ⟨hanswers, hentries⟩ := @reload_same_iff no_number none (bytes "framework.ini")
    plain_file (bytes "ab-CDEFGH") (bytes "cd-EFGHIJ") _ environ₁ app hclean hload
  obtain ⟨app', environ₂, hreload, hsame⟩ := hanswers.mpr plain_unmoved
  refine ⟨app, environ₁, app', environ₂, hload, hreload, hsame, ?_⟩
  intro heq
  exact absurd (hentries.mp heq _ List.mem_cons_self) (by decide)

/-- The name that the environment gives is gone behind a reload. -/
theorem reload_forgets :
    ¬∀ (kore_strtonum : Strtonum) (null_text : Option Bytes) (CONFIG file id₁ id₂ : Bytes)
      (entries environ₁ environ₂ : List Bytes) (app app' : App), (∀ env ∈ entries, 0 ∉ env) →
      aya_init kore_strtonum null_text CONFIG (some file) id₁ ⟨none, environ entries⟩
        .KORE_MODULE_LOAD = .ok ⟨some app, environ₁⟩ →
      reload kore_strtonum null_text CONFIG (some file) id₂ ⟨some app, environ₁⟩ =
        .ok ⟨some app', environ₂⟩ →
      ∀ key, SameAnswers app app' key := by
  intro h
  have hname : (aya_init no_number none (bytes "framework.ini") (some plain_file)
      (bytes "ab-CDEFGH") ⟨none, environ [bytes "AYA_APP_NAME=x"]⟩ .KORE_MODULE_LOAD >>=
        fun process => lift (process.root_app.elim (.ok none) app_name)) =
          .ok (some (bytes "x")) := by decide
  have hagain : (aya_init no_number none (bytes "framework.ini") (some plain_file)
      (bytes "ab-CDEFGH") ⟨none, environ [bytes "AYA_APP_NAME=x"]⟩ .KORE_MODULE_LOAD >>=
        fun process => reload no_number none (bytes "framework.ini") (some plain_file)
          (bytes "cd-EFGHIJ") process >>=
        fun process => lift (process.root_app.elim (.ok none) app_name)) =
          .ok (some (bytes "n")) := by decide
  obtain ⟨⟨root, environ₁⟩, hload, hfirst⟩ := bind_ok hname
  obtain ⟨process, hagain, hrest⟩ := bind_ok hagain
  obtain rfl := Except.ok.inj (hload.symm.trans hagain)
  obtain ⟨⟨root', environ₂⟩, hreload, hsecond⟩ := bind_ok hrest
  cases root with
  | none => cases lift_eq_ok.mp hfirst
  | some app =>
    cases root' with
    | none => cases lift_eq_ok.mp hsecond
    | some app' =>
      have hsame := h _ _ _ _ _ _ _ _ _ app app' (by decide) hload hreload
      have hget := (hsame (bytes "app.name")).str none
      have hx : config_get_str app (bytes "app.name") none = .ok (some (bytes "x")) :=
        lift_eq_ok.mp hfirst
      have hn : config_get_str app' (bytes "app.name") none = .ok (some (bytes "n")) :=
        lift_eq_ok.mp hsecond
      rw [hx, hn] at hget
      exact absurd hget (by decide)

end ConfigReload
