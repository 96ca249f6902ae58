import Ayahesa.IniParser

/-! # Loading the configuration file, and what requests read of it

The check behind the loading looks for three keys and adds a default for a fourth. Requests
read the settings one by one; a setting that is missing is NULL. -/
namespace AppStart

open CMemory CompatStrings CompatCopy TreeStore AppConfig IniParser

/-- `kore_strlcpy` on a destination, a source and a size. -/
structure KoreCopy where
  strlcpy : Block → Bytes → ℕ → Block
  /-- The first characters of the source and a NUL; what lies behind them stays. -/
  strlcpy_eq : ∀ dst src len, 0 < len → len ≤ dst.length →
    strlcpy dst src len =
      terminated (src.take (len - 1)) ++ dst.drop ((src.take (len - 1)).length + 1)

def app_instance (app : App) : Bytes := app.value

def app_name (app : App) : C (Option Bytes) := config_get_str app (bytes "app.name") none

def app_environment (app : App) : C (Option Bytes) := config_get_str app (bytes "app.env") none

def app_key (app : App) : C (Option Bytes) := config_get_str app (bytes "app.key") none

def app_storage (app : App) : C (Option Bytes) := config_get_str app (bytes "storage") none

def app_basic_auth (app : App) : C (Option Bytes) := config_get_str app (bytes "auth") none

def strcat_loop (d : Block) (i : ℕ) : Bytes → C Block
  | [] => write d i 0
  | c :: s => do
    let d ← write d i c
    strcat_loop d (i + 1) s

def strcat (dst : Block) (src : Bytes) : C Block := do
  let i ← end_loop dst 0 dst.length
  strcat_loop dst i src

/-- `domainname` is the static buffer as the calls before have left it. -/
def app_domainname (K : KoreCopy) (app : App) (domainname : Block) : C (Option Bytes) := do
  match ← config_get_str app (bytes "app.domain") none with
  | none => return none
  | some app_domain =>
    let domainname := K.strlcpy domainname (app_instance app) 128
    let domainname ←
      if app_domain.head? ≠ some 46 then strcat domainname (bytes ".") else .ok domainname
    let (domainname, _) ← aya_strlcat domainname app_domain 128
    return some (strtolower (← contents domainname))

def validate_config (app : App) : Proc App := do
  let has_name ← lift (tree_contains app.config (bytes "app.name"))
  let has_env ← lift (tree_contains app.config (bytes "app.env"))
  let has_key ← lift (tree_contains app.config (bytes "app.key"))
  let has_debug ← lift (tree_contains app.config (bytes "debug"))
  if ¬has_name then .error (.abort (bytes "'app.name' must be set"))
  else if ¬has_env then .error (.abort (bytes "'app.env' must be set"))
  else if ¬has_key then .error (.abort (bytes "'app.key' must be set"))
  else if ¬has_debug then config_put_int app (bytes "debug") 0
  else return app

/-- The file is given as `fopen` finds it. Beside the application stands the path of the log
file, which is opened last. -/
def application_config (kore_strtonum : Strtonum) (null_text : Option Bytes) (app : App)
    (configfile : Bytes) (file : Option Bytes) : Proc (App × Bytes) := do
  let (app, result) ← ini_parse (load_config_tree kore_strtonum) app file
  if result < 0 then
    .error (.abort (bytes "framework configuration error " ++ configfile))
  else
    let app ← validate_config app
    let storage ← lift (app_storage app)
    let storage ← lift (format_string null_text storage)
    return (app, snprintf 255 (storage ++ bytes "/ayahesa.log"))

/-! ## The domain name and its buffer -/

/-- What is appended overwrites the old NUL and must leave room for its own. -/
theorem strcat_loop_eq (front rest : Block) (src : Bytes) :
    strcat_loop (front ++ rest) front.length src =
      if src.length < rest.length then
        .ok (front ++ (terminated src ++ rest.drop (src.length + 1)))
      else .error .outOfBounds := by
  induction src generalizing front rest with
  | nil =>
    cases rest with
    | nil => simp [strcat_loop, write]
    | cons x rest =>
      rw [strcat_loop, write_at, if_pos (by simp)]
      rfl
  | cons c src ih =>
    cases rest with
    | nil => simp [strcat_loop, write, bind, Except.bind]
    | cons x rest =>
      have ih := ih (front ++ [some c]) rest
      have hlen : (front ++ [some c]).length = front.length + 1 := List.length_append
      rw [hlen, List.append_assoc, List.singleton_append] at ih
      rw [strcat_loop, write_at]
      simp only [bind, Except.bind, ih, List.length_cons, Nat.add_lt_add_iff_right]
      simp [terminated]

theorem strcat_eq {text : Bytes} (h : 0 ∉ text) (src : Bytes) (behind : Block) :
    strcat (terminated text ++ behind) src =
      if src.length ≤ behind.length then
        .ok (terminated (text ++ src) ++ behind.drop src.length)
      else .error .outOfBounds := by
  have hend := end_loop_found h [] behind (n := (terminated text ++ behind).length)
    (by rw [terminated, List.length_append, List.length_append, List.length_map,
      List.length_singleton]; omega)
  have hloop := strcat_loop_eq (text.map some) (some 0 :: behind) src
  have hsplit : terminated text ++ behind = text.map some ++ some 0 :: behind := by
    simp [terminated]
  rw [List.nil_append, List.length_nil, Nat.zero_add] at hend
  rw [List.length_map, List.drop_succ_cons, List.length_cons] at hloop
  rw [strcat, hend, hsplit]
  simp only [bind, Except.bind, hloop, Nat.lt_succ_iff]
  simp [terminated]

theorem strcat_dot {text : Bytes} (h : 0 ∉ text) (x : Option UInt8) (behind : Block) :
    strcat (terminated text ++ x :: behind) (bytes ".") =
      .ok (terminated (text ++ [46]) ++ behind) := by
  have hdot : bytes "." = [46] := by decide
  rw [hdot, strcat_eq h, if_pos (by simp)]
  rfl

/-- A text that ends at the end of the buffer has no room for a separator. -/
theorem strcat_over {text : Bytes} (h : 0 ∉ text) :
    strcat (terminated text) (bytes ".") = .error .outOfBounds := by
  have hcat := strcat_eq h (bytes ".") []
  rw [List.append_nil, if_neg (by decide)] at hcat
  exact hcat

def dotted (domain : Bytes) : Bytes := if domain.head? = some 46 then domain else 46 :: domain

theorem strlcat_contents {text domain : Bytes} {behind : Block} (h : 0 ∉ text) (hd : 0 ∉ domain)
    (hroom : text.length + 1 + behind.length = 128) : (do
      let (block, _) ← aya_strlcat (terminated text ++ behind) domain 128
      return some (strtolower (← contents block))) =
      (.ok (some (strtolower ((text ++ domain).take 127))) : C (Option Bytes)) := by
  have htake : (text ++ domain).take 127 = text ++ domain.take (128 - 1 - text.length) := by
    rw [List.take_append, List.take_of_length_le (by omega)]
  have hclean : 0 ∉ text ++ domain.take (128 - 1 - text.length) := by
    rw [List.mem_append]
    rintro (h0 | h0)
    · exact h h0
    · exact hd (List.mem_of_mem_take h0)
  have hcat := @aya_strlcat_eq text h domain behind 128 (by omega) (by omega)
  have hread := contents_terminated hclean
    (behind.drop (domain.take (128 - 1 - text.length)).length)
  simp only [hcat, bind, Except.bind, hread, htake]
  rfl

theorem copied_instance (K : KoreCopy) (value : Bytes) {domainname : Block}
    (hlen : domainname.length = 128) :
    ∃ behind, K.strlcpy domainname value 128 = terminated (value.take 127) ++ behind ∧
      (value.take 127).length + 1 + behind.length = 128 := by
  have hcut : (value.take 127).length ≤ 127 := List.length_take_le 127 value
  refine ⟨domainname.drop ((value.take 127).length + 1), ?_, ?_⟩
  · exact K.strlcpy_eq domainname value 128 (by decide) (Nat.le_of_eq hlen.symm)
  · rw [List.length_drop]
    omega

/-- The separator is appended without a look at the room that the instance leaves for it. -/
theorem app_domainname_eq (K : KoreCopy) {app : App} {domain : Bytes} {domainname : Block}
    (hget : config_get_str app (bytes "app.domain") none = .ok (some domain))
    (hlen : domainname.length = 128) (hi : 0 ∉ app.value) (hd : 0 ∉ domain) :
    app_domainname K app domainname =
      if domain.head? = some 46 ∨ app.value.length < 127 then
        .ok (some (strtolower ((app.value ++ dotted domain).take 127)))
      else .error .outOfBounds := by
  obtain ⟨behind, hcopy, hroom⟩ := copied_instance K app.value hlen
  obtain ⟨text, htext⟩ : ∃ text, text = app.value.take 127 := ⟨_, rfl⟩
  have hclean : 0 ∉ text := fun h0 => hi (List.mem_of_mem_take (htext ▸ h0))
  have htaken : text.length = min 127 app.value.length := by rw [htext, List.length_take]
  rw [← htext] at hcopy hroom
  simp only [app_domainname, hget, bind, Except.bind, app_instance, hcopy]
  by_cases hdot : domain.head? = some 46
  · rw [if_pos (Or.inl hdot), if_neg (not_not.mpr hdot), dotted, if_pos hdot]
    have hcat := strlcat_contents hclean hd hroom
    have hwhole : (text ++ domain).take 127 = (app.value ++ domain).take 127 := by
      rw [List.take_append, List.take_append, htext, List.take_take, Nat.min_self,
        List.length_take]
      congr 2
      omega
    rw [hwhole] at hcat
    exact hcat
  · rw [if_pos hdot, dotted, if_neg hdot]
    by_cases hfits : app.value.length < 127
    · rw [if_pos (Or.inr hfits)]
      have hall : text = app.value := by rw [htext, List.take_of_length_le (by omega)]
      obtain ⟨x, rest, hrest⟩ := List.exists_cons_of_length_pos
        (show 0 < behind.length by omega)
      have hsep : 0 ∉ text ++ [46] := by simpa using hclean
      have hcat := @strlcat_contents _ domain rest hsep hd
        (by rw [hrest, List.length_cons] at hroom; simp only [List.length_append,
          List.length_singleton]; omega)
      rw [hrest, strcat_dot hclean]
      rw [List.append_assoc, List.singleton_append, hall] at hcat
      rw [hall]
      exact hcat
    · have hnil : behind = [] := List.eq_nil_of_length_eq_zero (by omega)
      rw [if_neg (by simp [hdot, hfits]), hnil, List.append_nil, strcat_over hclean]

end AppStart
