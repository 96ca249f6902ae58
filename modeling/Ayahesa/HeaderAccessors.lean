import Ayahesa.EventRuns
import Ayahesa.HeaderStorage

/-! # Header accessors on one request

Every lookup of a cookie and every check of the credentials works on what the calls before it have
left of the headers. -/
namespace HeaderAccessors

open AuthMiddleware (blanks)
open CMemory CompatStrings DelimitedFields KoreApi CookieLookup StringTokens HeaderStorage

structure CString where
  text : Bytes
  clean : 0 ∉ text

/-- The two headers that the accessors read, as the client sent them. -/
structure Request where
  cookie : Option CString
  authorization : Option CString

inductive Accessor where
  | http_get_cookie (name : CString)
  | http_basic_auth (auth : CString)

def Accessor.is_lookup : Accessor → Bool
  | .http_get_cookie _ => true
  | .http_basic_auth _ => false

inductive Answer where
  | cookie (value : Option Bytes)
  | checked (seconds : ℕ) (result : ℤ)
  deriving DecidableEq, Repr

structure Storage where
  cookie : Option Bytes
  authorization : Option Bytes
  basic_auth_count : ℕ
  deriving DecidableEq, Repr

def stored (header : Option CString) : Option Bytes := header.map fun header => header.text ++ [0]

def Request.start (R : Request) (basic_auth_count : ℕ) : Storage :=
  ⟨stored R.cookie, stored R.authorization, basic_auth_count⟩

def call (K : Kore) (s : Storage) : Accessor → C (Answer × Storage)
  | .http_get_cookie name => do
    let (value, cookie) ← http_get_cookie s.cookie name.text
    return (.cookie value, { s with cookie := cookie })
  | .http_basic_auth auth => do
    let (attempt, authorization) ←
      http_basic_auth K s.authorization auth.text s.basic_auth_count
    return (.checked attempt.seconds attempt.result,
      { s with authorization := authorization, basic_auth_count := attempt.basic_auth_count })

/-- A call that returns, as a step on the storage. -/
def step (K : Kore) (s : Storage) (c : Accessor) : Option Storage :=
  (call K s c).toOption.map Prod.snd

/-- The call gives what it would give as the first call on the request. -/
def AsFirst (K : Kore) (R : Request) (s : Storage) (c : Accessor) : Prop :=
  (call K s c).map Prod.fst = (call K (R.start s.basic_auth_count) c).map Prod.fst

structure Unchanged (R : Request) (s : Storage) : Prop where
  cookie : s.cookie.map c_string = R.cookie.map CString.text
  authorization : s.authorization.map c_string = R.authorization.map CString.text

/-- Behind an earlier lookup the name has no value in the cookies, and behind an earlier check the
scheme is another one. -/
def Repeatable (R : Request) (past : List Accessor) : Accessor → Prop
  | .http_get_cookie name => past.any Accessor.is_lookup →
    ∀ cookie ∈ R.cookie, Stands (words (delimiters.contains ·) cookie.text) name.text none
  | .http_basic_auth _ => past.any (fun c => !c.is_lookup) →
    BasicAuth.tokens_of (bytes "basic") (R.authorization.map CString.text) = none

def Lone (delim text : Bytes) : Prop :=
  ∀ c ∈ text.dropWhile (delim.contains ·), delim.contains c = false

def Spares (R : Request) : Accessor → Prop
  | .http_get_cookie _ => ∀ cookie ∈ R.cookie, Lone delimiters cookie.text
  | .http_basic_auth _ => ∀ authorization ∈ R.authorization,
    Lone blanks authorization.text ∧ strtolower authorization.text = authorization.text

/-- What a caller sees depends on the strings in the storage and on the counter. -/
def answer_of (K : Kore) (cookie authorization : Option Bytes) (basic_auth_count : ℕ) :
    Accessor → C Answer
  | .http_get_cookie name => .ok (.cookie (CookieLookup.http_get_cookie cookie name.text))
  | .http_basic_auth auth =>
    (BasicAuth.http_basic_auth K authorization auth.text basic_auth_count).map fun attempt =>
      .checked attempt.seconds attempt.result

structure After (K : Kore) (R : Request) (past : List Accessor) (s : Storage) : Prop where
  cookie_string : Terminated s.cookie
  authorization_string : Terminated s.authorization
  cookie : s.cookie.map c_string = if past.any Accessor.is_lookup
    then (R.cookie.map CString.text).map (first_token delimiters) else R.cookie.map CString.text
  authorization : s.authorization.map c_string = if past.any (fun c => !c.is_lookup)
    then (R.authorization.map CString.text).map lowered else R.authorization.map CString.text
  admissible : past.any (fun c => !c.is_lookup) →
    BasicAuth.Admissible K (R.authorization.map CString.text)

section Call

variable {K : Kore} {R : Request} {s t : Storage} {past : List Accessor} {c : Accessor}
  {answer : Answer}

theorem terminated_stored (header : Option CString) : Terminated (stored header) := by
  cases header with
  | none => exact fun _ hx => nomatch hx
  | some header => exact terminated_held header.text []

theorem string_stored (header : Option CString) :
    (stored header).map c_string = header.map CString.text := by
  cases header with
  | none => rfl
  | some header => exact string_held [] header.clean

theorem call_answer (K : Kore) (c : Accessor) (hcookie : Terminated s.cookie)
    (hauthorization : Terminated s.authorization) :
    (call K s c).map Prod.fst = answer_of K (s.cookie.map c_string)
      (s.authorization.map c_string) s.basic_auth_count c := by
  cases c with
  | http_get_cookie name =>
    obtain ⟨cookie', hcall, -, -⟩ := http_get_cookie_eq name.text hcookie
    simp only [call, hcall, bind, Except.bind]
    rfl
  | http_basic_auth auth =>
    obtain ⟨authorization', hcall, -, -⟩ :=
      http_basic_auth_eq K auth.text s.basic_auth_count hauthorization
    simp only [call, hcall, answer_of, bind, Except.bind]
    cases BasicAuth.http_basic_auth K (s.authorization.map c_string) auth.text
      s.basic_auth_count with
    | error e => rfl
    | ok attempt => rfl

theorem after_start (K : Kore) (R : Request) (basic_auth_count : ℕ) :
    After K R [] (R.start basic_auth_count) where
  cookie_string := terminated_stored R.cookie
  authorization_string := terminated_stored R.authorization
  cookie := string_stored R.cookie
  authorization := string_stored R.authorization
  admissible := fun h => absurd h Bool.false_ne_true

theorem after_lookup {name : CString} (hafter : After K R past s)
    (h : step K s (.http_get_cookie name) = some t) :
    After K R (past ++ [.http_get_cookie name]) t := by
  obtain ⟨cookie', hcall, hstring, hcut⟩ := http_get_cookie_eq name.text hafter.cookie_string
  obtain rfl : { s with cookie := cookie' } = t := by
    simpa [step, call, hcall, bind, Except.bind, pure, Except.pure, Except.toOption] using h
  have hlooked : (past ++ [Accessor.http_get_cookie name]).any Accessor.is_lookup = true := by
    simp [Accessor.is_lookup]
  have hchecked : (past ++ [Accessor.http_get_cookie name]).any (fun c => !c.is_lookup) =
      past.any (fun c => !c.is_lookup) := by
    simp [Accessor.is_lookup]
  refine ⟨hstring, hafter.authorization_string, ?_, ?_, ?_⟩
  · rw [hcut, hafter.cookie, if_pos hlooked]
    split
    · rw [Option.map_map]
      exact congrArg (Option.map · _) (funext (first_token_first_token delimiters))
    · rfl
  · rw [hchecked]
    exact hafter.authorization
  · rw [hchecked]
    exact hafter.admissible

theorem after_check {auth : CString} (hafter : After K R past s)
    (h : step K s (.http_basic_auth auth) = some t) :
    After K R (past ++ [.http_basic_auth auth]) t := by
  obtain ⟨authorization', hcall, hstring, hcut⟩ :=
    http_basic_auth_eq K auth.text s.basic_auth_count hafter.authorization_string
  cases hattempt : BasicAuth.http_basic_auth K (s.authorization.map c_string) auth.text
      s.basic_auth_count with
  | error e =>
    rw [hattempt] at hcall
    simp [step, call, hcall, bind, Except.bind, Except.map, Except.toOption] at h
  | ok attempt =>
    rw [hattempt] at hcall
    obtain rfl : { s with authorization := authorization'
                          basic_auth_count := attempt.basic_auth_count } = t := by
      simpa [step, call, hcall, bind, Except.bind, pure, Except.pure, Except.map,
        Except.toOption] using h
    have hlooked : (past ++ [Accessor.http_basic_auth auth]).any Accessor.is_lookup =
        past.any Accessor.is_lookup := by
      simp [Accessor.is_lookup]
    have hchecked : (past ++ [Accessor.http_basic_auth auth]).any (fun c => !c.is_lookup) =
        true := by
      simp [Accessor.is_lookup]
    refine ⟨hafter.cookie_string, hstring, ?_, ?_, fun _ => ?_⟩
    · rw [hlooked]
      exact hafter.cookie
    · rw [hcut, hafter.authorization, if_pos hchecked]
      split
      · rw [Option.map_map]
        exact congrArg (Option.map · _) (funext lowered_lowered)
      · rfl
    · by_cases hearlier : past.any (fun c => !c.is_lookup) = true
      · exact hafter.admissible hearlier
      · -- the first check has read the header of the request
        have hheader := hafter.authorization
        rw [if_neg hearlier] at hheader
        rw [hheader] at hattempt
        exact AuthTotality.admissible_of_ok hattempt

theorem run_after {basic_auth_count : ℕ}
    (h : EventRuns.run (step K) (R.start basic_auth_count) past = some s) : After K R past s := by
  apply EventRuns.run_invariant (After K R) (fun _ _ => True) (after_start K R basic_auth_count) _
    (fun _ _ _ _ => trivial) h
  intro past c s t _ hafter _ hstep
  cases c with
  | http_get_cookie name => exact after_lookup hafter hstep
  | http_basic_auth auth => exact after_check hafter hstep

/-! ## When a call is as the first one -/

/-- Behind an earlier check a header of scheme Basic has no second token, which no first call that
returned has met. -/
theorem checked_again_iff {auth : Bytes} (h0 : 0 ∉ auth) {header : Option Bytes}
    (hadm : BasicAuth.Admissible K header) (basic_auth_count : ℕ) :
    (BasicAuth.http_basic_auth K (header.map lowered) auth basic_auth_count).map
        (fun attempt => Answer.checked attempt.seconds attempt.result) =
      (BasicAuth.http_basic_auth K header auth basic_auth_count).map
        (fun attempt => Answer.checked attempt.seconds attempt.result) ↔
    BasicAuth.tokens_of (bytes "basic") header = none := by
  have hlow := tokens_of_lowered (bytes "basic") header
  cases htokens : BasicAuth.tokens_of (bytes "basic") header with
  | none =>
    rw [htokens] at hlow
    rw [BasicAuth.http_basic_auth_other K auth basic_auth_count hlow,
      BasicAuth.http_basic_auth_other K auth basic_auth_count htokens]
    exact iff_of_true rfl rfl
  | some tokens =>
    rw [htokens, Option.map_some] at hlow
    refine iff_of_false ?_ (Option.some_ne_none tokens)
    rw [BasicAuth.http_basic_auth_basic K auth basic_auth_count hlow,
      BasicAuth.http_basic_auth_eq basic_auth_count h0 hadm]
    intro hsame
    split at hsame
    · cases hsame
    · unfold BasicAuth.failed BasicAuth.increment at hsame
      split at hsame
      · cases hsame
      · cases hsame

theorem looked_again_iff (cookie : Option CString) (name : Bytes) :
    CookieLookup.http_get_cookie ((cookie.map CString.text).map (first_token delimiters)) name =
      CookieLookup.http_get_cookie (cookie.map CString.text) name ↔
    ∀ header ∈ cookie, Stands (words (delimiters.contains ·) header.text) name none := by
  rw [http_get_cookie_first]
  cases cookie with
  | none => exact iff_of_true rfl fun _ h => nomatch h
  | some header =>
    rw [Option.map_some, CookieLookup.http_get_cookie, Option.bind_some, cookie_loop_words,
      eq_comm, lookup_paired_iff]
    constructor
    · intro h header' hheader
      obtain rfl := Option.mem_some.mp hheader
      exact h
    · exact fun h => h header rfl

theorem as_first_iff (hafter : After K R past s) : AsFirst K R s c ↔ Repeatable R past c := by
  rw [AsFirst, call_answer K c hafter.cookie_string hafter.authorization_string,
    call_answer K c (terminated_stored _) (terminated_stored _), Request.start, string_stored,
    string_stored]
  cases c with
  | http_get_cookie name =>
    simp only [answer_of, Except.ok.injEq, Answer.cookie.injEq, Repeatable, hafter.cookie]
    by_cases hlooked : past.any Accessor.is_lookup = true
    · rw [if_pos hlooked, looked_again_iff]
      exact ⟨fun h _ => h, fun h => h hlooked⟩
    · rw [if_neg hlooked]
      exact iff_of_true rfl fun h => absurd h hlooked
  | http_basic_auth auth =>
    simp only [answer_of, Repeatable, hafter.authorization]
    by_cases hchecked : past.any (fun c => !c.is_lookup) = true
    · rw [if_pos hchecked, checked_again_iff auth.clean (hafter.admissible hchecked)]
      exact ⟨fun h _ => h, fun h => h hchecked⟩
    · rw [if_neg hchecked]
      exact iff_of_true rfl fun h => absurd h hchecked

theorem map_text_eq_iff (header : Option CString) (f : Bytes → Bytes) :
    (header.map CString.text).map f = header.map CString.text ↔
      ∀ h ∈ header, f h.text = h.text := by
  cases header with
  | none => exact iff_of_true rfl fun _ h => nomatch h
  | some header =>
    rw [Option.map_some, Option.map_some, Option.some_inj]
    constructor
    · intro h header' hheader
      obtain rfl := Option.mem_some.mp hheader
      exact h
    · exact fun h => h header rfl

theorem spares_iff (R : Request) (c : Accessor) : Spares R c ↔
    if c.is_lookup then ∀ h ∈ R.cookie, first_token delimiters h.text = h.text
    else ∀ h ∈ R.authorization, lowered h.text = h.text := by
  cases c with
  | http_get_cookie name =>
    simp only [Accessor.is_lookup, if_true, Spares, first_token_eq_iff, Lone]
  | http_basic_auth auth =>
    simp only [Accessor.is_lookup, Bool.false_eq_true, if_false, Spares, lowered_eq_iff,
      first_token_eq_iff, Lone]

theorem unchanged_iff (hafter : After K R past s) :
    Unchanged R s ↔ ∀ c ∈ past, Spares R c := by
  constructor
  · rintro ⟨hcookie, hauthorization⟩ c hc
    rw [spares_iff]
    split
    · next hlookup =>
      have hany : past.any Accessor.is_lookup = true := List.any_eq_true.mpr ⟨c, hc, hlookup⟩
      rw [hafter.cookie, if_pos hany] at hcookie
      exact (map_text_eq_iff _ _).mp hcookie
    · next hcheck =>
      have hany : past.any (fun c => !c.is_lookup) = true :=
        List.any_eq_true.mpr ⟨c, hc, by simpa using hcheck⟩
      rw [hafter.authorization, if_pos hany] at hauthorization
      exact (map_text_eq_iff _ _).mp hauthorization
  · intro hspares
    refine ⟨?_, ?_⟩
    · rw [hafter.cookie]
      split
      · next hany =>
        obtain ⟨c, hc, hlookup⟩ := List.any_eq_true.mp hany
        have hspare := (spares_iff R c).mp (hspares c hc)
        rw [if_pos hlookup] at hspare
        exact (map_text_eq_iff _ _).mpr hspare
      · rfl
    · rw [hafter.authorization]
      split
      · next hany =>
        obtain ⟨c, hc, hcheck⟩ := List.any_eq_true.mp hany
        have hspare := (spares_iff R c).mp (hspares c hc)
        rw [if_neg (by simpa using hcheck)] at hspare
        exact (map_text_eq_iff _ _).mpr hspare
      · rfl

end Call

/-- Every call that is reached gives what it would give as the first one if and only if no name
with a value is looked up behind another lookup and no header of scheme Basic is checked behind
another check; the strings of the headers stay if and only if every call spares its own. -/
theorem header_accessors_iff (K : Kore) (R : Request) (basic_auth_count : ℕ)
    (calls : List Accessor) :
    ((∀ past c rest s, calls = past ++ c :: rest →
        EventRuns.run (step K) (R.start basic_auth_count) past = some s → AsFirst K R s c) ↔
      EventRuns.Throughout (fun past c =>
        EventRuns.run (step K) (R.start basic_auth_count) past ≠ none → Repeatable R past c)
        calls) ∧
    ((∀ past rest s, calls = past ++ rest →
        EventRuns.run (step K) (R.start basic_auth_count) past = some s → Unchanged R s) ↔
      EventRuns.Throughout (fun past c =>
        EventRuns.run (step K) (R.start basic_auth_count) (past ++ [c]) ≠ none → Spares R c)
        calls) := by
  constructor
  · apply EventRuns.throughout_iff
    intro past c s hs
    exact as_first_iff (run_after hs)
  · apply EventRuns.everywhere_iff
    intro past s hs
    exact unchanged_iff (run_after hs)

def two_cookies : Request := ⟨some ⟨bytes "a=1; b=2", by decide⟩, none⟩

/-- The second lookup does not find the cookie that it would find as the first one. -/
theorem second_lookup_fails :
    ¬∀ (K : Kore) (R : Request) (basic_auth_count : ℕ) (calls past : List Accessor) c rest s,
      calls = past ++ c :: rest →
      EventRuns.run (step K) (R.start basic_auth_count) past = some s → AsFirst K R s c := by
  intro h
  have hstep : ∃ s, EventRuns.run (step reference) (two_cookies.start 0)
      [.http_get_cookie ⟨bytes "a", by decide⟩] = some s := by
    obtain ⟨cookie', hcall, -, -⟩ :=
      http_get_cookie_eq (bytes "a") (terminated_stored two_cookies.cookie)
    refine ⟨{ two_cookies.start 0 with cookie := cookie' }, ?_⟩
    simp only [EventRuns.run, List.foldlM_cons, List.foldlM_nil, step, call, Request.start, hcall]
    rfl
  obtain ⟨s, hs⟩ := hstep
  have hfirst := h reference two_cookies 0 _ _ (.http_get_cookie ⟨bytes "b", by decide⟩) [] s rfl hs
  have hstands := (as_first_iff (run_after hs)).mp hfirst rfl _ rfl
  rw [← lookup_paired_iff] at hstands
  revert hstands
  decide

end HeaderAccessors
