import Ayahesa.AuthMiddleware
import Ayahesa.EventRuns

/-! # Basic authentication

The credentials of a request are compared with the configured ones. The counter of failures
outlives a request and slows down the next one. -/
namespace BasicAuth

open CMemory CompatStrings KoreApi DelimitedFields AuthMiddleware EventRuns

structure Attempt where
  seconds : ℕ
  result : ℤ
  basic_auth_count : ℕ
  deriving DecidableEq, Repr

def increment (basic_auth_count : ℕ) : C ℕ :=
  if basic_auth_count < 2 ^ 31 - 1 then .ok (basic_auth_count + 1) else .error .signedOverflow

def sleep_seconds (basic_auth_count : ℕ) : ℕ :=
  if basic_auth_count ≥ 20 then 5 else if basic_auth_count ≥ 5 then 1 else 0

/-- The length that the caller looks at next is not set when the text is rejected. -/
def kore_base64_decode (K : Kore) (code : Option Bytes) : C Bytes :=
  match code with
  | none => .error .nullPointer
  | some code =>
    match K.base64_decode code with
    | some undecode => .ok undecode
    | none => .error .uninitialised

def http_basic_auth (K : Kore) (header_auth : Option Bytes) (auth : Bytes)
    (basic_auth_count : ℕ) : C Attempt := do
  let seconds := sleep_seconds basic_auth_count
  let failed : C Attempt := (increment basic_auth_count).map fun count => ⟨seconds, 0, count⟩
  match header_auth with
  | none => failed
  | some header_auth =>
    match strtok header_auth blanks with
    | (none, _) => failed
    | (some method, next) =>
      if strtolower method = bytes "basic" then do
        let undecode ← kore_base64_decode K (strtok next blanks).1
        if undecode.length ≠ auth.length then failed
        else do
          let diff ← strncmp undecode.length undecode (auth ++ [0])
          if diff = 0 then return ⟨seconds, 1, 0⟩ else failed
      else failed

/-! ## What a header says -/

/-- The tokens behind the scheme, if the header is of that scheme. -/
def tokens_of (scheme : Bytes) (header : Option Bytes) : Option (List Bytes) :=
  match header.map (fields blank) with
  | some (method :: tokens) => if strtolower method = scheme then some tokens else none
  | _ => none

/-- The bytes that the second token decodes to, in a header of scheme Basic. -/
def credentials (K : Kore) (header : Option Bytes) : Option Bytes :=
  ((tokens_of (bytes "basic") header).bind List.head?).bind K.base64_decode

/-- A header of scheme Basic has a second token, and the token is decoded. -/
def Admissible (K : Kore) (header : Option Bytes) : Prop :=
  tokens_of (bytes "basic") header ≠ none → credentials K header ≠ none

instance (K : Kore) (header : Option Bytes) : Decidable (Admissible K header) :=
  inferInstanceAs (Decidable (_ → _))

/-- `strtok` leaves the scheme of a header and returns the token behind it, or NULL. -/
theorem strtok_scheme {scheme header : Bytes} {tokens : List Bytes}
    (h : tokens_of scheme (some header) = some tokens) :
    ∃ method next, strtok header blanks = (some method, next) ∧ strtolower method = scheme ∧
      (strtok next blanks).1 = tokens.head? := by
  obtain ⟨hfirst, hrest⟩ := strtok_fields header
  rw [tokens_of, Option.map_some] at h
  cases hf : fields blank header with
  | nil => simp [hf] at h
  | cons method more =>
    simp only [hf, Option.ite_none_right_eq_some, Option.some.injEq] at h
    obtain ⟨hscheme, rfl⟩ := h
    rw [hf, List.head?_cons] at hfirst
    rw [hf, List.tail_cons] at hrest
    obtain ⟨hsecond, -⟩ := strtok_fields (strtok header blanks).2
    rw [hrest] at hsecond
    exact ⟨method, (strtok header blanks).2, by rw [← hfirst], hscheme, hsecond⟩

theorem strtok_other {scheme header : Bytes} (h : tokens_of scheme (some header) = none) :
    (∃ next, strtok header blanks = (none, next)) ∨
      ∃ method next, strtok header blanks = (some method, next) ∧ strtolower method ≠ scheme := by
  obtain ⟨hfirst, -⟩ := strtok_fields header
  rcases hs : strtok header blanks with ⟨_ | method, next⟩
  · exact Or.inl ⟨next, rfl⟩
  · rw [hs] at hfirst
    obtain ⟨tokens, hf⟩ := List.head?_eq_some_iff.mp hfirst.symm
    refine Or.inr ⟨method, next, rfl, ?_⟩
    intro hscheme
    simp [tokens_of, hf, hscheme] at h

theorem strncmp_eq_zero {auth : Bytes} (h0 : 0 ∉ auth) {undecode : Bytes} (behind : Bytes)
    (hlen : undecode.length = auth.length) :
    ∃ diff, strncmp undecode.length undecode (auth ++ behind) = .ok diff ∧
      (diff = 0 ↔ undecode = auth) := by
  induction undecode generalizing auth with
  | nil =>
    obtain rfl := List.eq_nil_of_length_eq_zero hlen.symm
    exact ⟨0, rfl, by simp⟩
  | cons x s₁ ih =>
    obtain ⟨y, s₂, rfl⟩ := List.exists_cons_of_length_pos
      (show 0 < auth.length by rw [← hlen]; exact Nat.succ_pos _)
    have hy : y ≠ 0 := fun h => h0 (h ▸ List.mem_cons_self)
    obtain ⟨diff, hdiff, hzero⟩ := @ih s₂ (fun h => h0 (List.mem_cons_of_mem y h))
      (Nat.succ.inj hlen)
    rw [List.length_cons, List.cons_append]
    by_cases hxy : x = y
    · subst hxy
      rw [strncmp_agree _ _ _ hy]
      exact ⟨diff, hdiff, by rw [hzero, List.cons.injEq, and_iff_right rfl]⟩
    · obtain ⟨diff, hdiff, hne⟩ := strncmp_differ s₁.length s₁ (s₂ ++ behind) hxy
      exact ⟨diff, hdiff, iff_of_false hne fun h => hxy (List.cons.inj h).1⟩

section Call

variable {K : Kore} {header : Option Bytes} {auth : Bytes}

def failed (basic_auth_count : ℕ) : C Attempt :=
  (increment basic_auth_count).map fun count => ⟨sleep_seconds basic_auth_count, 0, count⟩

theorem failed_result {basic_auth_count : ℕ} {attempt : Attempt}
    (h : failed basic_auth_count = .ok attempt) : attempt.result = 0 := by
  unfold failed at h
  cases hcount : increment basic_auth_count with
  | error e =>
    rw [hcount] at h
    cases h
  | ok count =>
    rw [hcount] at h
    rw [← Except.ok.inj h]

theorem http_basic_auth_other (K : Kore) (auth : Bytes) (basic_auth_count : ℕ)
    (h : tokens_of (bytes "basic") header = none) :
    http_basic_auth K header auth basic_auth_count = failed basic_auth_count := by
  cases header with
  | none => rfl
  | some header =>
    rcases strtok_other h with ⟨next, hs⟩ | ⟨method, next, hs, hmethod⟩
    · simp only [http_basic_auth, hs]
      rfl
    · simp only [http_basic_auth, hs, if_neg hmethod]
      rfl

theorem http_basic_auth_basic (K : Kore) (auth : Bytes) (basic_auth_count : ℕ)
    {tokens : List Bytes} (h : tokens_of (bytes "basic") header = some tokens) :
    http_basic_auth K header auth basic_auth_count = (do
      let undecode ← kore_base64_decode K tokens.head?
      if undecode.length ≠ auth.length then failed basic_auth_count
      else do
        let diff ← strncmp undecode.length undecode (auth ++ [0])
        if diff = 0 then return ⟨sleep_seconds basic_auth_count, 1, 0⟩
        else failed basic_auth_count) := by
  cases header with
  | none => cases h
  | some header =>
    obtain ⟨method, next, hs, hbasic, hsecond⟩ := strtok_scheme h
    simp only [http_basic_auth, hs, if_pos hbasic, hsecond]
    rfl

/-- A call that gets to a result compares the decoded bytes with the configured ones. -/
theorem http_basic_auth_eq (basic_auth_count : ℕ) (h0 : 0 ∉ auth) (h : Admissible K header) :
    http_basic_auth K header auth basic_auth_count =
      if credentials K header = some auth then .ok ⟨sleep_seconds basic_auth_count, 1, 0⟩
      else failed basic_auth_count := by
  cases htokens : tokens_of (bytes "basic") header with
  | none =>
    rw [http_basic_auth_other K auth _ htokens, if_neg (by simp [credentials, htokens])]
  | some tokens =>
    obtain ⟨undecode, hcred⟩ := Option.ne_none_iff_exists'.mp (h (by simp [htokens]))
    rw [http_basic_auth_basic K auth _ htokens, hcred]
    rw [credentials, htokens, Option.bind_some] at hcred
    obtain ⟨code, hcode, hdecode⟩ := Option.bind_eq_some_iff.mp hcred
    have hread : kore_base64_decode K tokens.head? = .ok undecode := by
      simp only [kore_base64_decode, hcode, hdecode]
    simp only [hread, bind, Except.bind]
    by_cases hlen : undecode.length = auth.length
    · obtain ⟨diff, hdiff, hzero⟩ := strncmp_eq_zero h0 [0] hlen
      simp only [hlen, ne_eq, not_true, if_false]
      rw [← hlen, hdiff]
      by_cases heq : undecode = auth
      · simp only [hzero.mpr heq, heq, if_true]
        rfl
      · simp only [mt hzero.mp heq, Option.some.injEq, heq, if_false]
    · have hne : undecode ≠ auth := fun heq => hlen (heq ▸ rfl)
      rw [if_pos hlen, if_neg (by simpa using hne)]

end Call

/-! ## Runs of requests -/

/-- The failed calls since the last success, or since the start. -/
def failures (K : Kore) (auth : Bytes) (past : List (Option Bytes)) : ℕ :=
  (past.reverse.takeWhile fun header => credentials K header ≠ some auth).length

theorem failures_snoc (K : Kore) (auth : Bytes) (past : List (Option Bytes))
    (header : Option Bytes) :
    failures K auth (past ++ [header]) =
      if credentials K header = some auth then 0 else failures K auth past + 1 := by
  rw [failures, List.reverse_append, List.reverse_singleton, List.singleton_append]
  by_cases h : credentials K header = some auth
  · simp [h]
  · simp [h, failures]

theorem failures_le (K : Kore) (auth : Bytes) (past : List (Option Bytes)) :
    failures K auth past ≤ past.length := by
  rw [← List.length_reverse]
  exact (List.takeWhile_prefix _).length_le

theorem sleep_seconds_eq (n : ℕ) :
    sleep_seconds n = if n ≥ 20 then 5 else if 5 ≤ n ∧ n ≤ 19 then 1 else 0 := by
  unfold sleep_seconds
  by_cases h : n ≥ 20
  · rw [if_pos h, if_pos h]
  · rw [if_neg h, if_neg h]
    congr 1
    exact propext ⟨fun h5 => ⟨h5, by omega⟩, And.left⟩

def request (K : Kore) (auth : Bytes) (basic_auth_count : ℕ) (header : Option Bytes) : Option ℕ :=
  (http_basic_auth K header auth basic_auth_count).toOption.map Attempt.basic_auth_count

theorem call_counts {K : Kore} {auth : Bytes} {past : List (Option Bytes)}
    {header : Option Bytes} (h0 : 0 ∉ auth) (hadm : Admissible K header)
    (hfew : failures K auth (past ++ [header]) < 2 ^ 31 - 1) :
    http_basic_auth K header auth (failures K auth past) =
      .ok ⟨sleep_seconds (failures K auth past), if credentials K header = some auth then 1 else 0,
        failures K auth (past ++ [header])⟩ := by
  rw [http_basic_auth_eq _ h0 hadm]
  rw [failures_snoc] at hfew ⊢
  by_cases h : credentials K header = some auth
  · simp only [if_pos h]
  · simp only [if_neg h] at hfew ⊢
    rw [failed, increment, if_pos (by omega)]
    rfl

/-- In every run the counter holds the number of failed calls since the last success before each
call; the call succeeds on exactly the configured credentials and sleeps by that number. -/
theorem basic_auth_throttle (K : Kore) (auth : Bytes) (headers : List (Option Bytes))
    (h0 : 0 ∉ auth) (hadm : ∀ header ∈ headers, Admissible K header)
    (hfew : ∀ past, past <+: headers → failures K auth past < 2 ^ 31 - 1) :
    ∀ past header rest, headers = past ++ header :: rest → ∃ attempt,
      run (request K auth) 0 past = some (failures K auth past) ∧
      http_basic_auth K header auth (failures K auth past) = .ok attempt ∧
      attempt.result = (if credentials K header = some auth then 1 else 0) ∧
      attempt.seconds = (if failures K auth past ≥ 20 then 5
        else if 5 ≤ failures K auth past ∧ failures K auth past ≤ 19 then 1 else 0) ∧
      attempt.basic_auth_count = failures K auth (past ++ [header]) := by
  have hcalls : Throughout (fun past header => Admissible K header ∧
      failures K auth (past ++ [header]) < 2 ^ 31 - 1) headers := by
    intro past header rest hsplit
    refine ⟨hadm header (by simp [hsplit]), hfew _ ⟨rest, ?_⟩⟩
    rw [hsplit, List.append_assoc, List.singleton_append]
  intro past header rest hsplit
  rw [hsplit] at hcalls
  obtain ⟨count, hrun, rfl⟩ : ∃ count, run (request K auth) 0 past = some count ∧
      count = failures K auth past := by
    apply run_progress (fun past count => count = failures K auth past) _ rfl ?_ hcalls.of_append
    rintro past header _ rfl ⟨hheader, hcount⟩
    refine ⟨_, ?_, rfl⟩
    rw [request, call_counts h0 hheader hcount]
    rfl
  obtain ⟨hheader, hcount⟩ := hcalls past header rest rfl
  exact ⟨_, hrun, call_counts h0 hheader hcount, rfl, sleep_seconds_eq _, rfl⟩

theorem basic_auth_throttle_granted :
    ∃ attempt, http_basic_auth reference (some (bytes "BASIC QQ==")) (bytes "A") 1 = .ok attempt ∧
      attempt.result = 1 ∧ attempt.seconds = 0 ∧ attempt.basic_auth_count = 0 := by
  have hfew : ∀ past, past <+: [none, some (bytes "BASIC QQ==")] →
      failures reference (bytes "A") past < 2 ^ 31 - 1 := by
    intro past hpast
    have hlen := failures_le reference (bytes "A") past
    have hall := hpast.length_le
    rw [List.length_cons, List.length_singleton] at hall
    omega
  obtain ⟨attempt, -, hcall, hresult, hseconds, hcount⟩ := basic_auth_throttle reference
    (bytes "A") [none, some (bytes "BASIC QQ==")] (by decide) (by decide +kernel) hfew [none]
    (some (bytes "BASIC QQ==")) [] rfl
  exact ⟨attempt, hcall, hresult, hseconds, hcount⟩

end BasicAuth
