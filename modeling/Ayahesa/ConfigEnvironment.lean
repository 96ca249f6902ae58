import Ayahesa.AppConfig
import Ayahesa.CompatStrings

/-! # Settings from the environment

An entry is cut in place: its `=` and its first `_` become NULs, wherever the `_` stands. -/
namespace ConfigEnvironment

open CMemory CompatStrings AppConfig

def strtolower_at (d : Bytes) (i : ℕ) : C Bytes := do
  let str ← cstr d i
  return d.take i ++ (strtolower str ++ d.drop (i + str.length))

/-- The cuts at the `=` and, if there is one, at the `_`; the strings are read afterwards. -/
def split_entry (env : Bytes) (base : ℕ) (sect : Option ℕ) (last : ℕ) :
    C ((Bytes × Bytes × Bytes) × Bytes) := do
  let env ← store env last 0
  match sect with
  | some cut =>
    let env ← store env cut 0
    let env ← strtolower_at env base
    let env ← strtolower_at env (cut + 1)
    return ((← cstr env base, ← cstr env (cut + 1), ← cstr env (last + 1)), env)
  | none =>
    let env ← strtolower_at env base
    return (([], ← cstr env base, ← cstr env (last + 1)), env)

/-- The body of the loop: what `load_config_tree` is given, and the entry as it is left. -/
def env_setting (env : Bytes) : C (Option (Bytes × Bytes × Bytes) × Bytes) := do
  let diff ← strncmp 4 (bytes "AYA_") env
  if diff = 0 then
    let base := 4
    let sect ← strchr env base 95
    match ← strchr env base 61 with
    | none => return (none, env)
    | some last =>
      let (call, env) ← split_entry env base sect last
      return (some call, env)
  else return (none, env)

/-- `i` is the number of the entry, counted from 1; the entries are changed in place. -/
def application_env {σ : Type} (load : Loader σ) (app : σ) (i : ℕ) :
    List Bytes → Proc (σ × List Bytes)
  | [] => .ok (app, [])
  | env :: rest => do
    let (call, env) ← lift (env_setting env)
    let app ← match call with
      | some (sect, name, value) => (load app sect name value i).map Prod.fst
      | none => .ok app
    let (app, rest) ← application_env load app (i + 1) rest
    return (app, env :: rest)

/-- The environment block: every entry is followed by a NUL. -/
def environ (entries : List Bytes) : List Bytes := entries.map (· ++ [0])

/-! ## What an entry says -/

def cut (c : UInt8) (s : Bytes) : Option (Bytes × Bytes) :=
  if c ∈ s then some (s.takeWhile (· ≠ c), (s.dropWhile (· ≠ c)).tail) else none

def assignment (env : Bytes) : Option (Bytes × Bytes) :=
  if bytes "AYA_" <+: env then cut 61 (env.drop 4) else none

/-- The setting that an entry stands for. -/
def expected (i : ℕ) (env : Bytes) : Option Setting :=
  (assignment env).map fun (N, V) =>
    match cut 95 N with
    | some (S, R) => ⟨strtolower S, strtolower R, V, i⟩
    | none => ⟨[], strtolower N, V, i⟩

/-- The setting that is loaded: the first `_` may be one of the value. -/
def actual (i : ℕ) (env : Bytes) : Option Setting :=
  (assignment env).map fun (N, V) =>
    match cut 95 N with
    | some (S, R) => ⟨strtolower S, strtolower R, V, i⟩
    | none =>
      match cut 95 V with
      | some (U, W) => ⟨strtolower N, strtolower W, U, i⟩
      | none => ⟨[], strtolower N, V, i⟩

def settings_of (parse : ℕ → Bytes → Option Setting) : ℕ → List Bytes → List Setting
  | _, [] => []
  | i, env :: rest => (parse i env).toList ++ settings_of parse (i + 1) rest

/-- The value has no `_` that the name lacks. -/
def Separated (env : Bytes) : Prop := ∀ N V, assignment env = some (N, V) → 95 ∈ N ∨ 95 ∉ V

theorem cut_at {c : UInt8} {x : Bytes} (y : Bytes) (h : c ∉ x) :
    cut c (x ++ c :: y) = some (x, y) := by
  have hx : ∀ a ∈ x, decide (a ≠ c) = true := fun a ha => by
    simpa using fun hac : a = c => h (hac ▸ ha)
  rw [cut, if_pos (by simp), List.takeWhile_append_of_pos hx, List.dropWhile_append_of_pos hx]
  simp

theorem cut_none {c : UInt8} {s : Bytes} (h : c ∉ s) : cut c s = none := if_neg h

theorem cut_cases (c : UInt8) (s : Bytes) :
    (c ∉ s ∧ cut c s = none) ∨ ∃ x y, s = x ++ c :: y ∧ c ∉ x ∧ cut c s = some (x, y) := by
  by_cases h : c ∈ s
  · obtain ⟨x, y, rfl, hx⟩ := List.eq_append_cons_of_mem h
    exact Or.inr ⟨x, y, rfl, hx, cut_at y hx⟩
  · exact Or.inl ⟨h, cut_none h⟩

theorem strncmp_eq_zero_iff {text : Bytes} (env : Bytes) (h : 0 ∉ text) :
    ∃ diff, strncmp text.length text (env ++ [0]) = .ok diff ∧ (diff = 0 ↔ text <+: env) := by
  induction text generalizing env with
  | nil => exact ⟨0, rfl, iff_of_true rfl List.nil_prefix⟩
  | cons c text ih =>
    have hc : c ≠ 0 := fun h0 => h (h0 ▸ List.mem_cons_self)
    cases env with
    | nil =>
      obtain ⟨diff, hdiff, hne⟩ := strncmp_differ text.length text [] hc
      exact ⟨diff, hdiff, iff_of_false hne (by simp)⟩
    | cons x env =>
      by_cases hx : c = x
      · subst hx
        obtain ⟨diff, hdiff, hzero⟩ := ih env fun h0 => h (List.mem_cons_of_mem c h0)
        refine ⟨diff, ?_, by rw [hzero, List.cons_prefix_cons, and_iff_right rfl]⟩
        rw [List.length_cons, List.cons_append, strncmp_agree _ _ _ hc, hdiff]
      · obtain ⟨diff, hdiff, hne⟩ := strncmp_differ text.length text (env ++ [0]) hx
        exact ⟨diff, hdiff, iff_of_false hne fun h => hx (List.cons_prefix_cons.mp h).1⟩

theorem strtolower_at_eq {text : Bytes} (left right : Bytes) (h : 0 ∉ text) :
    strtolower_at (left ++ (text ++ 0 :: right)) left.length =
      .ok (left ++ (strtolower text ++ 0 :: right)) := by
  simp [strtolower_at, cstr_at right h, bind, Except.bind, pure, Except.pure]

theorem strtolower_length (str : Bytes) : (strtolower str).length = str.length :=
  List.length_map _

theorem strtolower_free {c : UInt8} {text : Bytes} (hc : c < 97) (h : c ∉ text) :
    c ∉ strtolower text := by
  intro hmem
  obtain ⟨a, ha, hlower⟩ := List.mem_map.mp hmem
  unfold tolower at hlower
  by_cases hrange : 65 ≤ a ∧ a ≤ 90
  · rw [if_pos hrange] at hlower
    have hge : 65 ≤ a.toNat := UInt8.le_iff_toNat_le.mp hrange.1
    have hle : a.toNat ≤ 90 := UInt8.le_iff_toNat_le.mp hrange.2
    have hlt : c.toNat < 97 := UInt8.lt_iff_toNat_lt.mp hc
    have hsum : (a.toNat + 32) % 256 = c.toNat := congrArg UInt8.toNat hlower
    omega
  · rw [if_neg hrange] at hlower
    exact h (hlower ▸ ha)

theorem strtolower_clean {text : Bytes} (h : 0 ∉ text) : 0 ∉ strtolower text :=
  strtolower_free (by decide) h

/-- The entry in memory when the loop is done with it. -/
def changed (env : Bytes) : Bytes :=
  match assignment env with
  | none => env ++ [0]
  | some (N, V) =>
    match cut 95 N with
    | some (S, R) =>
      bytes "AYA_" ++ (strtolower S ++ 0 :: (strtolower R ++ 0 :: (V ++ [0])))
    | none =>
      match cut 95 V with
      | some (U, W) =>
        bytes "AYA_" ++ (strtolower N ++ 0 :: (U ++ 0 :: (strtolower W ++ [0])))
      | none => bytes "AYA_" ++ (strtolower N ++ 0 :: (V ++ [0]))

theorem search_ok (rest : Bytes) {c : UInt8} (hc : c ≠ 0) :
    ∃ found, strchr (bytes "AYA_" ++ (rest ++ [0])) 4 c = .ok found := by
  have hlen : (4 : ℕ) = (bytes "AYA_").length := by decide
  rcases strchr_cases (bytes "AYA_") (rest ++ [0]) hc with
    ⟨text, -, -, -, -, h⟩ | ⟨-, -, -, -, -, h⟩ | ⟨-, h0, -⟩
  · exact ⟨_, by rw [hlen, h]⟩
  · exact ⟨_, by rw [hlen, h]⟩
  · exact absurd (List.mem_append_right _ List.mem_cons_self) h0

theorem assignment_at {rest : Bytes} :
    assignment (bytes "AYA_" ++ rest) = cut 61 rest := by
  rw [assignment, if_pos (List.prefix_append _ _)]
  rfl

section Entry

variable {A N V S R U W : Bytes}

/-- An `_` of the name parts the section from the rest. -/
theorem split_sectioned (hS : 0 ∉ S) (hR : 0 ∉ R) (hV : 0 ∉ V) :
    split_entry (A ++ (S ++ 95 :: (R ++ 61 :: (V ++ [0])))) A.length
        (some (A.length + S.length)) (A.length + (S ++ 95 :: R).length) =
      .ok ((strtolower S, strtolower R, V),
        A ++ (strtolower S ++ 0 :: (strtolower R ++ 0 :: (V ++ [0])))) := by
  have hlast : store (A ++ (S ++ 95 :: (R ++ 61 :: (V ++ [0])))) (A.length + (S ++ 95 :: R).length)
      0 = .ok (A ++ (S ++ 95 :: (R ++ 0 :: (V ++ [0])))) := by
    simpa [Nat.add_assoc] using store_at (A ++ (S ++ 95 :: R)) 61 (V ++ [0]) 0
  have hcut : store (A ++ (S ++ 95 :: (R ++ 0 :: (V ++ [0])))) (A.length + S.length) 0 =
      .ok (A ++ (S ++ 0 :: (R ++ 0 :: (V ++ [0])))) := by
    simpa using store_at (A ++ S) 95 (R ++ 0 :: (V ++ [0])) 0
  have hsect := strtolower_at_eq A (R ++ 0 :: (V ++ [0])) hS
  have hname : strtolower_at (A ++ (strtolower S ++ 0 :: (R ++ 0 :: (V ++ [0]))))
      (A.length + S.length + 1) =
        .ok (A ++ (strtolower S ++ 0 :: (strtolower R ++ 0 :: (V ++ [0])))) := by
    have h := strtolower_at_eq (A ++ (strtolower S ++ [0])) (V ++ [0]) hR
    simpa [Nat.add_assoc, strtolower_length] using h
  have hread₁ := @cstr_at A (strtolower S) (strtolower R ++ 0 :: (V ++ [0])) (strtolower_clean hS)
  have hread₂ : cstr (A ++ (strtolower S ++ 0 :: (strtolower R ++ 0 :: (V ++ [0]))))
      (A.length + S.length + 1) = .ok (strtolower R) := by
    have h := @cstr_at (A ++ (strtolower S ++ [0])) (strtolower R) (V ++ [0]) (strtolower_clean hR)
    simpa [Nat.add_assoc, strtolower_length] using h
  have hread₃ : cstr (A ++ (strtolower S ++ 0 :: (strtolower R ++ 0 :: (V ++ [0]))))
      (A.length + (S ++ 95 :: R).length + 1) = .ok V := by
    have h := @cstr_at (A ++ (strtolower S ++ 0 :: (strtolower R ++ [0]))) V [] hV
    simpa [Nat.add_assoc, strtolower_length] using h
  simp only [split_entry, bind, Except.bind, hlast, hcut, hsect, hname, hread₁, hread₂, hread₃]
  rfl

/-- An `_` of the value cuts the value, and what stands behind it becomes the name. -/
theorem split_misled (hN : 0 ∉ N) (hU : 0 ∉ U) (hW : 0 ∉ W) :
    split_entry (A ++ (N ++ 61 :: (U ++ 95 :: (W ++ [0])))) A.length
        (some (A.length + (N ++ 61 :: U).length)) (A.length + N.length) =
      .ok ((strtolower N, strtolower W, U),
        A ++ (strtolower N ++ 0 :: (U ++ 0 :: (strtolower W ++ [0])))) := by
  have hlast : store (A ++ (N ++ 61 :: (U ++ 95 :: (W ++ [0])))) (A.length + N.length) 0 =
      .ok (A ++ (N ++ 0 :: (U ++ 95 :: (W ++ [0])))) := by
    simpa using store_at (A ++ N) 61 (U ++ 95 :: (W ++ [0])) 0
  have hcut : store (A ++ (N ++ 0 :: (U ++ 95 :: (W ++ [0])))) (A.length + (N ++ 61 :: U).length)
      0 = .ok (A ++ (N ++ 0 :: (U ++ 0 :: (W ++ [0])))) := by
    simpa [Nat.add_assoc] using store_at (A ++ (N ++ 0 :: U)) 95 (W ++ [0]) 0
  have hsect := strtolower_at_eq A (U ++ 0 :: (W ++ [0])) hN
  have hname : strtolower_at (A ++ (strtolower N ++ 0 :: (U ++ 0 :: (W ++ [0]))))
      (A.length + (N ++ 61 :: U).length + 1) =
        .ok (A ++ (strtolower N ++ 0 :: (U ++ 0 :: (strtolower W ++ [0])))) := by
    have h := strtolower_at_eq (A ++ (strtolower N ++ 0 :: (U ++ [0]))) [] hW
    simpa [Nat.add_assoc, strtolower_length] using h
  have hread₁ := @cstr_at A (strtolower N) (U ++ 0 :: (strtolower W ++ [0])) (strtolower_clean hN)
  have hread₂ : cstr (A ++ (strtolower N ++ 0 :: (U ++ 0 :: (strtolower W ++ [0]))))
      (A.length + (N ++ 61 :: U).length + 1) = .ok (strtolower W) := by
    have h := @cstr_at (A ++ (strtolower N ++ 0 :: (U ++ [0]))) (strtolower W) []
      (strtolower_clean hW)
    simpa [Nat.add_assoc, strtolower_length] using h
  have hread₃ : cstr (A ++ (strtolower N ++ 0 :: (U ++ 0 :: (strtolower W ++ [0]))))
      (A.length + N.length + 1) = .ok U := by
    have h := @cstr_at (A ++ (strtolower N ++ [0])) U (strtolower W ++ [0]) hU
    simpa [Nat.add_assoc, strtolower_length] using h
  simp only [split_entry, bind, Except.bind, hlast, hcut, hsect, hname, hread₁, hread₂, hread₃]
  rfl

theorem split_plain (hN : 0 ∉ N) (hV : 0 ∉ V) :
    split_entry (A ++ (N ++ 61 :: (V ++ [0]))) A.length none (A.length + N.length) =
      .ok (([], strtolower N, V), A ++ (strtolower N ++ 0 :: (V ++ [0]))) := by
  have hlast : store (A ++ (N ++ 61 :: (V ++ [0]))) (A.length + N.length) 0 =
      .ok (A ++ (N ++ 0 :: (V ++ [0]))) := by
    simpa using store_at (A ++ N) 61 (V ++ [0]) 0
  have hname := strtolower_at_eq A (V ++ [0]) hN
  have hread₁ := @cstr_at A (strtolower N) (V ++ [0]) (strtolower_clean hN)
  have hread₂ : cstr (A ++ (strtolower N ++ 0 :: (V ++ [0]))) (A.length + N.length + 1) =
      .ok V := by
    have h := @cstr_at (A ++ (strtolower N ++ [0])) V [] hV
    simpa [Nat.add_assoc, strtolower_length] using h
  simp only [split_entry, bind, Except.bind, hlast, hname, hread₁, hread₂]
  rfl

end Entry

theorem env_setting_found {env : Bytes} {sect : Option ℕ} {last : ℕ}
    {call : Bytes × Bytes × Bytes} {after : Bytes}
    (hp : strncmp 4 (bytes "AYA_") env = .ok 0) (hsect : strchr env 4 95 = .ok sect)
    (hlast : strchr env 4 61 = .ok (some last))
    (hsplit : split_entry env 4 sect last = .ok (call, after)) :
    env_setting env = .ok (some call, after) := by
  simp [env_setting, hp, hsect, hlast, hsplit, bind, Except.bind, pure, Except.pure]

theorem env_setting_eq (i : ℕ) {env : Bytes} (h : 0 ∉ env) :
    env_setting (env ++ [0]) =
      .ok ((actual i env).map fun s => (s.sect, s.name, s.value), changed env) := by
  obtain ⟨diff, hprefix, hzero⟩ := @strncmp_eq_zero_iff (bytes "AYA_") env (by decide)
  have hlen : (bytes "AYA_").length = 4 := by decide
  rw [hlen] at hprefix
  by_cases hp : bytes "AYA_" <+: env
  · rw [hzero.mpr hp] at hprefix
    obtain ⟨rest, rfl⟩ := hp
    rw [List.append_assoc] at hprefix ⊢
    have hrest : 0 ∉ rest := fun h0 => h (List.mem_append_right _ h0)
    rw [actual, changed, assignment_at]
    rcases cut_cases 61 rest with ⟨h61, hcut⟩ | ⟨N, V, rfl, hN, hcut⟩
    · obtain ⟨sect, hsect⟩ := search_ok rest (c := 95) (by decide)
      have hlast := @strchr_ended (bytes "AYA_") rest 61 [] h61 hrest (by decide)
      rw [hlen] at hlast
      simp [env_setting, hprefix, hsect, hlast, hcut, bind, Except.bind, pure, Except.pure]
    have hN0 : 0 ∉ N := fun h0 => hrest (by simp [h0])
    have hV0 : 0 ∉ V := fun h0 => hrest (by simp [h0])
    have hlast := @strchr_found (bytes "AYA_") N 61 (V ++ [0]) hN hN0
    rw [hcut]
    rcases cut_cases 95 N with ⟨h95, hsect⟩ | ⟨S, R, rfl, hS, hsect⟩
    · rcases cut_cases 95 V with ⟨hV, hvalue⟩ | ⟨U, W, rfl, hU, hvalue⟩
      · have hfree : 95 ∉ N ++ 61 :: V := by simp [h95, hV]
        have hfound := @strchr_ended (bytes "AYA_") _ 95 [] hfree hrest (by decide)
        have hsplit := @split_plain (bytes "AYA_") N V hN0 hV0
        rw [hlen] at hlast hfound hsplit
        simp only [Option.map_some, hsect, hvalue]
        rw [List.append_assoc, List.cons_append] at hprefix hfound ⊢
        exact env_setting_found hprefix hfound hlast hsplit
      · have hfree : 95 ∉ N ++ 61 :: U := by simp [h95, hU]
        have hU0 : 0 ∉ U := fun h0 => hV0 (by simp [h0])
        have hW0 : 0 ∉ W := fun h0 => hV0 (by simp [h0])
        have hfree0 : 0 ∉ N ++ 61 :: U := by simp [hN0, hU0]
        have hfound := @strchr_found (bytes "AYA_") (N ++ 61 :: U) 95 (W ++ [0]) hfree hfree0
        have hsplit := @split_misled (bytes "AYA_") N U W hN0 hU0 hW0
        rw [hlen] at hlast hfound hsplit
        simp only [Option.map_some, hsect, hvalue]
        simp only [List.append_assoc, List.cons_append] at hprefix hfound hlast ⊢
        exact env_setting_found hprefix hfound hlast hsplit
    · have hS0 : 0 ∉ S := fun h0 => hN0 (by simp [h0])
      have hR0 : 0 ∉ R := fun h0 => hN0 (by simp [h0])
      have hfound := @strchr_found (bytes "AYA_") S 95 (R ++ 61 :: (V ++ [0])) hS hS0
      have hsplit := @split_sectioned (bytes "AYA_") V S R hS0 hR0 hV0
      rw [hlen] at hlast hfound hsplit
      simp only [Option.map_some, hsect]
      simp only [List.append_assoc, List.cons_append] at hprefix hfound hlast ⊢
      exact env_setting_found hprefix hfound hlast hsplit
  · have ha : assignment env = none := if_neg hp
    have hdiff : diff ≠ 0 := fun h => hp (hzero.mp h)
    simp [env_setting, hprefix, hdiff, actual, changed, ha, bind, Except.bind, pure, Except.pure]

theorem actual_lineno {i : ℕ} {env : Bytes} {s : Setting} (h : actual i env = some s) :
    s.lineno = i := by
  obtain ⟨⟨N, V⟩, -, rfl⟩ := Option.map_eq_some_iff.mp h
  dsimp only
  cases cut 95 N with
  | some SR => rfl
  | none => cases cut 95 V <;> rfl

theorem application_env_eq {σ : Type} (load : Loader σ) (app : σ) (i : ℕ) {entries : List Bytes}
    (h : ∀ env ∈ entries, 0 ∉ env) :
    application_env load app i (environ entries) =
      (load_each load app (settings_of actual i entries)).map fun app =>
        (app, entries.map changed) := by
  induction entries generalizing app i with
  | nil => rfl
  | cons env rest ih =>
    have henv := env_setting_eq i (h env List.mem_cons_self)
    have ih := fun app => ih app (i + 1) fun e he => h e (List.mem_cons_of_mem env he)
    rw [environ] at ih
    rw [environ, List.map_cons, application_env, henv, settings_of, load_each_append]
    cases hcall : actual i env with
    | none =>
      have hfirst : load_each load app (none : Option Setting).toList = .ok app := rfl
      simp only [hfirst, lift_ok, Option.map_none, bind, Except.bind, ih]
      cases load_each load app (settings_of actual (i + 1) rest) <;> rfl
    | some s =>
      have hline := actual_lineno hcall
      have hfirst : load_each load app (some s).toList =
          (load app s.sect s.name s.value i).map Prod.fst := by
        rw [Option.toList_some, load_each_singleton, hline]
      simp only [hfirst, lift_ok, Option.map_some, bind, Except.bind]
      cases (load app s.sect s.name s.value i).map Prod.fst with
      | error e => rfl
      | ok app =>
        simp only [ih]
        cases load_each load app (settings_of actual (i + 1) rest) <;> rfl

theorem expected_eq_actual_iff (i : ℕ) (env : Bytes) :
    expected i env = actual i env ↔ Separated env := by
  unfold expected actual Separated
  cases ha : assignment env with
  | none => simp
  | some NV =>
    obtain ⟨N, V⟩ := NV
    rcases cut_cases 95 N with ⟨hN, hcut⟩ | ⟨S, R, rfl, hS, hcut⟩
    · rcases cut_cases 95 V with ⟨hV, hvalue⟩ | ⟨U, W, rfl, hU, hvalue⟩
      · simp [hcut, hvalue, hV]
      · -- the value that is loaded has lost the `_` and what follows
        have hne : U ++ 95 :: W ≠ U := fun heq => by
          have hlen := congrArg List.length heq
          simp at hlen
        simp [hcut, hvalue, hN, hne]
    · simp [hcut]

theorem settings_eq_iff (i : ℕ) (entries : List Bytes) :
    settings_of actual i entries = settings_of expected i entries ↔
      ∀ env ∈ entries, Separated env := by
  induction entries generalizing i with
  | nil => simp [settings_of]
  | cons env rest ih =>
    have hsame : (actual i env).isSome = (expected i env).isSome := by
      rw [actual, expected, Option.isSome_map, Option.isSome_map]
    rw [List.forall_mem_cons, ← expected_eq_actual_iff i, ← ih (i + 1), settings_of, settings_of]
    cases hact : actual i env with
    | none =>
      cases hexp : expected i env with
      | none => simp
      | some t =>
        rw [hact, hexp] at hsame
        cases hsame
    | some s =>
      cases hexp : expected i env with
      | none =>
        rw [hact, hexp] at hsame
        cases hsame
      | some t => simp [eq_comm]

def Calls (entries : List Bytes) : Prop :=
  ∀ (σ : Type) (load : Loader σ) (app : σ),
    (application_env load app 1 (environ entries)).map Prod.fst =
      load_each load app (settings_of expected 1 entries)

theorem application_env_calls_iff {entries : List Bytes} (h : ∀ env ∈ entries, 0 ∉ env) :
    Calls entries ↔ ∀ env ∈ entries, Separated env := by
  rw [← settings_eq_iff 1]
  have hrun : ∀ (σ : Type) (load : Loader σ) (app : σ),
      (application_env load app 1 (environ entries)).map Prod.fst =
        load_each load app (settings_of actual 1 entries) := by
    intro σ load app
    rw [application_env_eq load app 1 h]
    cases load_each load app (settings_of actual 1 entries) <;> rfl
  constructor
  · intro hcalls
    have hrecord := (hrun _ record []).symm.trans (hcalls _ record [])
    rw [load_each_record, load_each_record] at hrecord
    exact Except.ok.inj hrecord
  · intro heq σ load app
    rw [hrun, heq]

theorem application_env_calls_sectioned :
    Calls [bytes "AYA_APP_NAME=x_y=z", bytes "PATH=/a_b"] := by
  have hclean : ∀ env ∈ [bytes "AYA_APP_NAME=x_y=z", bytes "PATH=/a_b"], 0 ∉ env := by decide
  have hname : assignment (bytes "AYA_APP_NAME=x_y=z") = some (bytes "APP_NAME", bytes "x_y=z") :=
    by decide
  have hpath : assignment (bytes "PATH=/a_b") = none := by decide
  apply (application_env_calls_iff hclean).mpr
  intro env henv N V h
  rcases List.mem_pair.mp henv with rfl | rfl
  · rw [hname] at h
    cases h
    exact Or.inl (by decide)
  · rw [hpath] at h
    cases h

/-- `_` in the value of a name without one: the name gets lost and the value is cut. -/
theorem application_env_misled : ¬Calls [bytes "AYA_DEBUG=a_b"] := by
  intro h
  exact absurd (h _ record []) (by decide)

end ConfigEnvironment
