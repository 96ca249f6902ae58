import Ayahesa.AuthTotality
import Ayahesa.ConfigEnvironment
import Ayahesa.StringTokens

/-! # Headers that are cut in place

The accessors cut and lower the header in the storage in which Kore keeps it. They answer for the
string that they find there. -/
namespace HeaderStorage

open AuthMiddleware CMemory CompatStrings ConfigEnvironment DelimitedFields KoreApi CookieLookup
open StringTokens

def cookie_loop_at (name : Bytes) (iskey isfound : Bool) (d : Bytes) (p : ℕ) :
    C (Option ℕ × Bytes) :=
  match _h : strtok_at d p delimiters with
  | .error e => .error e
  | .ok (none, _, d) => .ok (none, d)
  | .ok (some pch, next, d) =>
    if iskey then
      match cstr d pch with
      | .error e => .error e
      | .ok key => cookie_loop_at name false (isfound || key = name) d next
    else if isfound then .ok (some pch, d)
    else cookie_loop_at name true isfound d next
termination_by d.length - p
decreasing_by
  all_goals exact strtok_at_advances _h

/-- The string at the returned place, and the storage. -/
def http_get_cookie (cookie : Option Bytes) (name : Bytes) : C (Option Bytes × Option Bytes) :=
  match cookie with
  | none => .ok (none, none)
  | some cookiejar => do
    let (pch, cookiejar) ← cookie_loop_at name true false cookiejar 0
    let value ← pch.mapM (cstr cookiejar)
    return (value, some cookiejar)

def http_basic_auth (K : Kore) (authorization : Option Bytes) (auth : Bytes)
    (basic_auth_count : ℕ) : C (BasicAuth.Attempt × Option Bytes) := do
  let seconds := BasicAuth.sleep_seconds basic_auth_count
  let failed (d : Option Bytes) : C (BasicAuth.Attempt × Option Bytes) :=
    (BasicAuth.increment basic_auth_count).map fun count => (⟨seconds, 0, count⟩, d)
  match authorization with
  | none => failed none
  | some d =>
    let (method, next, d) ← strtok_at d 0 blanks
    match method with
    | none => failed (some d)
    | some method =>
      let d ← strtolower_at d method
      let scheme ← cstr d method
      if scheme = bytes "basic" then
        let (code, _, d) ← strtok_at d next blanks
        let code ← code.mapM (cstr d)
        let undecode ← BasicAuth.kore_base64_decode K code
        if undecode.length ≠ auth.length then failed (some d)
        else
          let diff ← strncmp undecode.length undecode (auth ++ [0])
          if diff = 0 then return (⟨seconds, 1, 0⟩, some d) else failed (some d)
      else failed (some d)

/-! ## The accessors on the strings in the storage -/

theorem delimiters_clean : 0 ∉ delimiters := by decide

theorem blanks_clean : 0 ∉ blanks := by decide

section Loop

variable {name left text : Bytes} {iskey isfound : Bool}

theorem cookie_loop_at_none {d d' : Bytes} {p next : ℕ}
    (h : strtok_at d p delimiters = .ok (none, next, d')) :
    cookie_loop_at name iskey isfound d p = .ok (none, d') := by
  rw [cookie_loop_at]
  split
  · next heq =>
    rw [h] at heq
    cases heq
  · next heq =>
    rw [h] at heq
    cases heq
    rfl
  · next heq =>
    rw [h] at heq
    cases heq

theorem cookie_loop_at_some {d d' key : Bytes} {p pch next : ℕ}
    (h : strtok_at d p delimiters = .ok (some pch, next, d')) (hkey : cstr d' pch = .ok key) :
    cookie_loop_at name iskey isfound d p =
      if iskey then cookie_loop_at name false (isfound || key = name) d' next
      else if isfound then .ok (some pch, d')
      else cookie_loop_at name true isfound d' next := by
  rw [cookie_loop_at]
  split
  · next heq =>
    rw [h] at heq
    cases heq
  · next heq =>
    rw [h] at heq
    cases heq
  · next heq =>
    rw [h] at heq
    cases heq
    simp only [hkey]

def Leaves (loop : C (Option ℕ × Bytes)) (left text : Bytes) (answer : Option Bytes) : Prop :=
  ∃ pch right, loop = .ok (pch, left ++ (first_token delimiters text ++ 0 :: right)) ∧
    pch.mapM (cstr (left ++ (first_token delimiters text ++ 0 :: right))) = .ok answer

/-- What the later calls of `strtok` do leaves the first token as it is. -/
theorem leaves_of_cut {front word tail rest : Bytes} {loop : C (Option ℕ × Bytes)}
    {answer : Option Bytes} (hcut : Cut delimiters text front word tail rest)
    (h : Leaves loop (left ++ (front ++ (word ++ tail))) rest answer) :
    Leaves loop left text answer := by
  obtain ⟨pch, right, hloop, hread⟩ := h
  have hnil : rest = [] → first_token delimiters rest = [] := by
    rintro rfl
    rfl
  obtain ⟨right', -, hright⟩ := hcut.region left hnil right
  rw [hright] at hloop hread
  exact ⟨pch, right', hloop, hread⟩

theorem cookie_loop_at_leaves (name left right : Bytes) (iskey isfound : Bool)
    (hclean : 0 ∉ text) :
    Leaves (cookie_loop_at name iskey isfound (left ++ (text ++ 0 :: right)) left.length) left text
      (cookie_loop name iskey isfound text) := by
  fun_induction cookie_loop name iskey isfound text generalizing left with
  | case1 iskey isfound text next htok =>
    rcases strtok_at_cases left right delimiters_clean hclean with
      ⟨-, hfirst, hcall⟩ | ⟨front, word, tail, rest, hcut, -⟩
    · refine ⟨none, right, ?_, rfl⟩
      rw [cookie_loop_at_none hcall, hfirst]
    · cases hcut.token.symm.trans htok
  | case2 isfound text pch next htok ih =>
    obtain ⟨front, tail, hcut, hcall⟩ := strtok_at_found left right delimiters_clean hclean htok
    rw [cookie_loop_at_some hcall (hcut.read left right), if_pos rfl]
    exact leaves_of_cut hcut (ih (left ++ (front ++ (pch ++ tail))) hcut.rest_clean)
  | case3 iskey text pch next htok hkey =>
    obtain ⟨front, tail, hcut, hcall⟩ := strtok_at_found left right delimiters_clean hclean htok
    have hread := hcut.read left right
    rw [cookie_loop_at_some hcall hread, if_neg hkey, if_pos rfl]
    obtain ⟨right', -, hright⟩ := hcut.region left (fun h => h) right
    rw [hright] at hread ⊢
    refine ⟨_, right', rfl, ?_⟩
    simp only [Option.mapM_some, hread]
    rfl
  | case4 iskey isfound text pch next htok hkey hfound ih =>
    obtain ⟨front, tail, hcut, hcall⟩ := strtok_at_found left right delimiters_clean hclean htok
    rw [cookie_loop_at_some hcall (hcut.read left right), if_neg hkey, if_neg hfound]
    exact leaves_of_cut hcut (ih (left ++ (front ++ (pch ++ tail))) hcut.rest_clean)

end Loop

def Terminated (d : Option Bytes) : Prop := ∀ x ∈ d, 0 ∈ x

theorem terminated_held (text right : Bytes) : Terminated (some (text ++ 0 :: right)) := by
  intro x hx
  obtain rfl := Option.mem_some.mp hx
  exact List.mem_append_right _ List.mem_cons_self

theorem string_held {text : Bytes} (right : Bytes) (h : 0 ∉ text) :
    (some (text ++ 0 :: right)).map c_string = some text := by
  rw [Option.map_some, c_string_append_zero, c_string_of_clean h]

/-- A lookup answers for the string in the storage and cuts it behind its first token. -/
theorem http_get_cookie_eq (name : Bytes) {cookie : Option Bytes} (h : Terminated cookie) :
    ∃ cookie', http_get_cookie cookie name =
        .ok (CookieLookup.http_get_cookie (cookie.map c_string) name, cookie') ∧
      Terminated cookie' ∧
      cookie'.map c_string = (cookie.map c_string).map (first_token delimiters) := by
  cases cookie with
  | none => exact ⟨none, rfl, h, rfl⟩
  | some d =>
    obtain ⟨right, hd⟩ := c_string_region (h d rfl)
    have hclean := c_string_clean d
    obtain ⟨pch, right', hloop, hread⟩ :=
      cookie_loop_at_leaves name [] right true false hclean
    rw [List.nil_append, ← hd] at hloop
    rw [List.nil_append] at hloop hread
    refine ⟨some (first_token delimiters (c_string d) ++ 0 :: right'), ?_, terminated_held _ _,
      string_held right' (first_token_clean hclean)⟩
    simp only [http_get_cookie, List.length_nil] at hloop ⊢
    simp only [hloop, hread, bind, Except.bind]
    rfl

def lowered (text : Bytes) : Bytes := strtolower (first_token blanks text)

theorem lowered_clean {text : Bytes} (h : 0 ∉ text) : 0 ∉ lowered text :=
  strtolower_clean (first_token_clean h)

theorem blanks_tolower : (blanks.contains ·) ∘ tolower = (blanks.contains ·) := by
  funext c
  have hkept : tolower c = 32 ↔ c = 32 := by
    unfold tolower
    by_cases hupper : 65 ≤ c ∧ c ≤ 90
    · have hge : 65 ≤ c.toNat := UInt8.le_iff_toNat_le.mp hupper.1
      have hle : c.toNat ≤ 90 := UInt8.le_iff_toNat_le.mp hupper.2
      rw [if_pos hupper, ← UInt8.toNat_inj, ← UInt8.toNat_inj, UInt8.toNat_add]
      refine iff_of_false ?_ ?_
      · change (c.toNat + 32) % 256 ≠ 32
        omega
      · change c.toNat ≠ 32
        omega
    · rw [if_neg hupper]
  rw [Function.comp_apply, Bool.eq_iff_iff, blanks_eq]
  simpa [blank] using hkept

theorem strtolower_blank {front : Bytes} (h : ∀ c ∈ front, blanks.contains c = true) :
    strtolower front = front := by
  refine (List.map_congr_left ?_).trans (List.map_id front)
  intro c hc
  have hc32 : c = 32 := by simpa [blanks_eq, blank] using h c hc
  rw [hc32]
  rfl

theorem lowered_of {text front word : Bytes} (hfront : ∀ c ∈ front, blanks.contains c = true)
    (h : first_token blanks text = front ++ word) : lowered text = front ++ strtolower word := by
  rw [lowered, h, strtolower, List.map_append]
  exact congrArg (· ++ strtolower word) (strtolower_blank hfront)

/-- In the storage with the token in lower case the rest is where it was. -/
theorem lowered_region {text front word tail rest : Bytes}
    (hcut : Cut blanks text front word tail rest) {x : Bytes} (hx : rest = [] → x = [])
    (r : Bytes) : ∃ right, front ++ (strtolower word ++ tail) ++ (x ++ 0 :: r) =
      lowered text ++ 0 :: right ∧
    front ++ (word ++ tail) ++ (x ++ 0 :: r) = front ++ (word ++ 0 :: right) ∧
    front ++ (strtolower word ++ tail) ++ (x ++ 0 :: r) =
      front ++ (strtolower word ++ 0 :: right) := by
  obtain ⟨right, hright⟩ := hcut.front_eq hx r
  have hlow := lowered_of hcut.front_blank hcut.first
  refine ⟨right, ?_, ?_, ?_⟩
  · rw [hlow, ← hright]
    simp only [List.append_assoc]
  · rw [← hright]
    simp only [List.append_assoc]
  · rw [← hright]
    simp only [List.append_assoc]

section BasicAuth

variable {K : Kore} {auth text : Bytes} {basic_auth_count : ℕ}

theorem failed_map {β : Type} (basic_auth_count : ℕ) (d : β) :
    ((BasicAuth.increment basic_auth_count).map fun count =>
      ((⟨BasicAuth.sleep_seconds basic_auth_count, 0, count⟩ : BasicAuth.Attempt), d)) =
      (BasicAuth.failed basic_auth_count).map (·, d) := by
  rw [BasicAuth.failed]
  cases BasicAuth.increment basic_auth_count with
  | error e => rfl
  | ok count => rfl

theorem verdict_map {β : Type} (K : Kore) (auth : Bytes) (basic_auth_count : ℕ)
    (code : Option Bytes) (d : β) :
    (do
      let undecode ← BasicAuth.kore_base64_decode K code
      if undecode.length ≠ auth.length then (BasicAuth.failed basic_auth_count).map (·, d)
      else
        let diff ← strncmp undecode.length undecode (auth ++ [0])
        if diff = 0 then return (⟨BasicAuth.sleep_seconds basic_auth_count, 1, 0⟩, d)
        else (BasicAuth.failed basic_auth_count).map (·, d)) =
    (do
      let undecode ← BasicAuth.kore_base64_decode K code
      if undecode.length ≠ auth.length then BasicAuth.failed basic_auth_count
      else
        let diff ← strncmp undecode.length undecode (auth ++ [0])
        if diff = 0 then return ⟨BasicAuth.sleep_seconds basic_auth_count, 1, 0⟩
        else BasicAuth.failed basic_auth_count).map (·, d) := by
  cases BasicAuth.kore_base64_decode K code with
  | error e => rfl
  | ok undecode =>
    simp only [bind, Except.bind]
    by_cases hlen : undecode.length ≠ auth.length
    · rw [if_pos hlen, if_pos hlen]
    · rw [if_neg hlen, if_neg hlen]
      cases strncmp undecode.length undecode (auth ++ [0]) with
      | error e => rfl
      | ok diff =>
        dsimp only
        by_cases hdiff : diff = 0
        · rw [if_pos hdiff, if_pos hdiff]
          rfl
        · rw [if_neg hdiff, if_neg hdiff]

theorem strtok_none_blank {next : Bytes} (h : strtok text blanks = (none, next)) :
    ∀ c ∈ text, blanks.contains c = true := by
  rw [strtok] at h
  split at h
  · next hnil => exact List.dropWhile_eq_nil_iff.mp hnil
  · cases h

/-- A check answers for the string; it leaves the first token, in lower case. -/
theorem http_basic_auth_text (K : Kore) (auth : Bytes) (basic_auth_count : ℕ) (right : Bytes)
    (hclean : 0 ∉ text) :
    ∃ right', http_basic_auth K (some (text ++ 0 :: right)) auth basic_auth_count =
      (BasicAuth.http_basic_auth K (some text) auth basic_auth_count).map
        (·, some (lowered text ++ 0 :: right')) := by
  have hcases := strtok_at_cases [] right blanks_clean hclean
  simp only [List.nil_append, List.length_nil] at hcases
  rcases hcases with ⟨htok, hfirst, hcall⟩ | ⟨front, word, tail, rest, hcut, hcall⟩
  · refine ⟨right, ?_⟩
    have hlow : lowered text = text := by
      rw [lowered, hfirst]
      exact strtolower_blank (strtok_none_blank htok)
    simp only [http_basic_auth, BasicAuth.http_basic_auth, htok, hcall, hlow, bind,
      Except.bind]
    exact failed_map _ _
  · obtain ⟨right', hlow, hregion, hplain⟩ := lowered_region hcut (fun h => h) right
    have hlower := strtolower_at_eq front right' hcut.word_clean
    have hscheme := @cstr_at front (strtolower word) right' (strtolower_clean hcut.word_clean)
    have hnext : (front ++ (word ++ tail)).length =
        (front ++ (strtolower word ++ tail)).length := by
      simp only [List.length_append, strtolower_length]
    rw [hregion] at hcall
    by_cases hbasic : strtolower word = bytes "basic"
    · obtain ⟨pch, next, r, hsecond, hread⟩ := strtok_at_keeps (front ++ (strtolower word ++ tail))
        right blanks_clean hcut.rest_clean
      have hnil : rest = [] → first_token blanks rest = [] := by
        rintro rfl
        rfl
      obtain ⟨right₂, hlow₂, -, -⟩ := lowered_region hcut hnil r
      rw [← hnext, hplain, hlow₂] at hsecond
      rw [hlow₂] at hread
      refine ⟨right₂, ?_⟩
      simp only [http_basic_auth, BasicAuth.http_basic_auth, hcut.token, hcall,
        hlower, hscheme, if_pos hbasic, hsecond, hread, bind, Except.bind]
      simp only [failed_map]
      exact verdict_map K auth basic_auth_count _ _
    · refine ⟨right', ?_⟩
      rw [← hlow, hplain]
      simp only [http_basic_auth, BasicAuth.http_basic_auth, hcut.token, hcall,
        hlower, hscheme, if_neg hbasic, bind, Except.bind]
      exact failed_map _ _

theorem http_basic_auth_eq (K : Kore) (auth : Bytes) (basic_auth_count : ℕ)
    {authorization : Option Bytes} (h : Terminated authorization) :
    ∃ authorization', http_basic_auth K authorization auth basic_auth_count =
        (BasicAuth.http_basic_auth K (authorization.map c_string) auth basic_auth_count).map
          (·, authorization') ∧
      Terminated authorization' ∧
      authorization'.map c_string = (authorization.map c_string).map lowered := by
  cases authorization with
  | none => exact ⟨none, failed_map _ _, h, rfl⟩
  | some d =>
    obtain ⟨right, hd⟩ := c_string_region (h d rfl)
    have hclean := c_string_clean d
    obtain ⟨right', hcall⟩ := http_basic_auth_text K auth basic_auth_count right hclean
    rw [← hd] at hcall
    exact ⟨some (lowered (c_string d) ++ 0 :: right'), hcall, terminated_held _ _,
      string_held right' (lowered_clean hclean)⟩

end BasicAuth

/-! ## Calls on strings that were cut before -/

/-- Of a string that was cut no cookie is found. -/
theorem http_get_cookie_first (cookie : Option Bytes) (name : Bytes) :
    CookieLookup.http_get_cookie (cookie.map (first_token delimiters)) name = none := by
  cases cookie with
  | none => rfl
  | some text =>
    have hwords := words_first_token delimiters text
    rw [Option.map_some, CookieLookup.http_get_cookie, Option.bind_some, cookie_loop_words, hwords]
    cases words (delimiters.contains ·) text with
    | nil => rfl
    | cons word more => rfl

theorem tolower_tolower (c : UInt8) : tolower (tolower c) = tolower c := by
  by_cases hupper : 65 ≤ c ∧ c ≤ 90
  · have hge : 65 ≤ c.toNat := UInt8.le_iff_toNat_le.mp hupper.1
    have hle : c.toNat ≤ 90 := UInt8.le_iff_toNat_le.mp hupper.2
    have hlower : ¬(65 ≤ c + 32 ∧ c + 32 ≤ 90) := by
      rintro ⟨-, h⟩
      have hsum : (c.toNat + 32) % 256 ≤ 90 := UInt8.le_iff_toNat_le.mp h
      omega
    have heq : tolower c = c + 32 := if_pos hupper
    rw [heq]
    exact if_neg hlower
  · have heq : tolower c = c := if_neg hupper
    rw [heq, heq]

theorem strtolower_strtolower (str : Bytes) : strtolower (strtolower str) = strtolower str := by
  rw [strtolower, strtolower, List.map_map]
  exact List.map_congr_left fun c _ => tolower_tolower c

theorem lowered_lowered (text : Bytes) : lowered (lowered text) = lowered text := by
  have hcut : first_token blanks (lowered text) = lowered text := by
    rw [lowered, strtolower, first_token_map blanks_tolower, first_token_first_token]
  rw [lowered, hcut, lowered, strtolower_strtolower]

theorem lowered_eq_iff (text : Bytes) : lowered text = text ↔
    first_token blanks text = text ∧ strtolower text = text := by
  constructor
  · intro h
    have hlen : (first_token blanks text).length = text.length := by
      rw [← strtolower_length, ← lowered, h]
    have hwhole := (first_token_at_start blanks text).eq_of_length hlen
    rw [lowered, hwhole] at h
    exact ⟨hwhole, h⟩
  · rintro ⟨hwhole, hlow⟩
    rw [lowered, hwhole, hlow]

theorem words_lowered (text : Bytes) :
    words (blanks.contains ·) (lowered text) =
      ((words (blanks.contains ·) text).take 1).map strtolower := by
  rw [lowered, strtolower, words_map, blanks_tolower, words_first_token]
  rfl

theorem tokens_of_lowered (scheme : Bytes) (header : Option Bytes) :
    BasicAuth.tokens_of scheme (header.map lowered) =
      (BasicAuth.tokens_of scheme header).map fun _ => [] := by
  cases header with
  | none => rfl
  | some text =>
    have hlow := words_lowered text
    rw [← fields_blank, ← fields_blank] at hlow
    rw [BasicAuth.tokens_of, BasicAuth.tokens_of, Option.map_some, Option.map_some,
      Option.map_some, hlow]
    cases fields blank text with
    | nil => rfl
    | cons method tokens =>
      simp only [List.take_succ_cons, List.take_zero, List.map_cons, List.map_nil,
        strtolower_strtolower]
      by_cases hscheme : strtolower method = scheme
      · rw [if_pos hscheme, if_pos hscheme]
        rfl
      · rw [if_neg hscheme, if_neg hscheme]
        rfl

end HeaderStorage
