import Ayahesa.AuthTotality
import Ayahesa.EventRuns

/-! # The status page over many requests

The controller notes in a global of the worker that its request is authenticated, and the template
engine reads the global by its name. -/
namespace StatusPage

open CMemory HttpRequest KoreApi LoopIteration TreeStore ViewPasses ViewPredefined HttpView

def status_has_auth_user : Bytes := bytes "status_has_auth_user"

def with_flag (S : Symbols) (flag : ℤ) : Symbols :=
  { S with vvar := fun name => if name = status_has_auth_user then some flag else S.vvar name }

/-- A request that reaches the controller, with what else its page is made of; every pass of the
page is given a number of rounds. -/
structure StatusRequest where
  symbols : Symbols
  surroundings : Surroundings
  rounds : ℕ

def StatusRequest.principal (e : StatusRequest) : Option Bytes :=
  http_auth_principal e.surroundings.hdlr_extra

structure Response where
  headers : List (Bytes × Bytes)
  reply : Reply
  deriving DecidableEq, Repr

def status_tree : Proc Tree := do
  let session := fresh 0
  let session ← TreeStore.tree_put_str session (bytes "background-clr") (bytes "#9370db")
  TreeStore.tree_put_str session (bytes "title") (bytes "Framework Status Page")

def status_headers : List (Bytes × Bytes) :=
  [(bytes "cache-control", bytes "no-cache,no-store,must-revalidate"),
    (bytes "pragma", bytes "no-cache"), (bytes "expires", bytes "0")]

def note_user (hdlr_extra : RequestData) (flag : ℤ) : ℤ :=
  if (http_auth_principal (some hdlr_extra)).isSome then 1 else flag

def get_status (K : Kore) (e : StatusRequest) (flag : ℤ) : Option (Proc (Response × ℤ)) :=
  let extra := e.surroundings.hdlr_extra.getD RequestData.zero
  let flag := note_user extra flag
  andThen (some status_tree) fun session =>
  let V := { e.surroundings with
    hdlr_extra := some { extra with session := some ⟨session.ptr⟩ } }
  let view := http_view K (with_flag e.symbols flag) V e.rounds 200 (bytes "status")
  andThen (view.map lift) fun reply =>
  some (.ok (⟨status_headers, reply⟩, flag))

def symbols_at_view (e : StatusRequest) (flag : ℤ) : Symbols :=
  with_flag e.symbols (note_user (e.surroundings.hdlr_extra.getD RequestData.zero) flag)

/-- One request in a worker; behind a page that is not finished there is no next request. -/
def serve (K : Kore) (flag : ℤ) (e : StatusRequest) : Option ℤ :=
  match get_status K e flag with
  | some (.ok (_, flag)) => some flag
  | _ => none

/-- The engine sees the user of this request, and the response is that of a new worker. -/
structure Reflects (K : Kore) (e : StatusRequest) (flag : ℤ) : Prop where
  seen : get_vvar (symbols_at_view e flag) status_has_auth_user = 1 ↔ e.principal ≠ none
  response : get_status K e flag = get_status K e 0

/-- A request without a principal comes behind none that has one. -/
def NoUserBefore (past : List StatusRequest) (e : StatusRequest) : Prop :=
  e.principal = none → ∀ d ∈ past, d.principal = none

section Step

variable {K : Kore} {e : StatusRequest} {flag : ℤ}

theorem principal_getD (hdlr_extra : Option RequestData) :
    http_auth_principal (some (hdlr_extra.getD RequestData.zero)) =
      http_auth_principal hdlr_extra := by
  cases hdlr_extra with
  | none => rfl
  | some data => rfl

theorem note_user_eq (e : StatusRequest) (flag : ℤ) :
    note_user (e.surroundings.hdlr_extra.getD RequestData.zero) flag =
      if e.principal = none then flag else 1 := by
  rw [note_user, principal_getD, StatusRequest.principal]
  cases http_auth_principal e.surroundings.hdlr_extra with
  | none => rfl
  | some principal => rfl

theorem seen_eq (e : StatusRequest) (flag : ℤ) :
    get_vvar (symbols_at_view e flag) status_has_auth_user =
      if e.principal = none then flag else 1 := by
  rw [get_vvar, symbols_at_view, with_flag, note_user_eq]
  simp only [if_true, Option.getD_some]

theorem serve_flag {t : ℤ} (h : serve K flag e = some t) :
    t = if e.principal = none then flag else 1 := by
  rw [← note_user_eq]
  unfold serve at h
  split at h
  · next response flag' hcall =>
    obtain rfl := Option.some.inj h
    rw [get_status] at hcall
    obtain ⟨session, -, hview⟩ := andThen_eq_ok_iff.mp hcall
    obtain ⟨reply, -, hend⟩ := andThen_eq_ok_iff.mp hview
    exact (congrArg Prod.snd (Except.ok.inj (Option.some.inj hend))).symm
  · cases h

theorem get_status_zero (h : e.principal = none → flag = 0) :
    get_status K e flag = get_status K e 0 := by
  have hnote : note_user (e.surroundings.hdlr_extra.getD RequestData.zero) flag =
      note_user (e.surroundings.hdlr_extra.getD RequestData.zero) 0 := by
    rw [note_user_eq, note_user_eq]
    by_cases hnone : e.principal = none
    · rw [if_pos hnone, if_pos hnone, h hnone]
    · rw [if_neg hnone, if_neg hnone]
  rw [get_status, get_status, hnote]

/-- The global is 0 or 1, and a request reflects itself where it does not find a 1 of another. -/
theorem reflects_iff (hflag : flag = 0 ∨ flag = 1) :
    Reflects K e flag ↔ (e.principal = none → flag = 0) := by
  constructor
  · intro hreflects hnone
    have hseen := hreflects.seen
    rw [seen_eq, if_pos hnone] at hseen
    rcases hflag with hzero | hone
    · exact hzero
    · exact absurd hnone (hseen.mp hone)
  · intro hzero
    refine ⟨?_, get_status_zero hzero⟩
    rw [seen_eq]
    by_cases hnone : e.principal = none
    · rw [if_pos hnone, hzero hnone]
      exact iff_of_false (by decide) (not_not_intro hnone)
    · rw [if_neg hnone]
      exact iff_of_true rfl hnone

end Step

/-! ## Runs of a worker -/

section Run

variable {K : Kore} {past : List StatusRequest} {flag : ℤ}

/-- The global is set from the first authenticated request on. -/
structure Noted (past : List StatusRequest) (flag : ℤ) : Prop where
  range : flag = 0 ∨ flag = 1
  unset : flag = 0 ↔ ∀ d ∈ past, d.principal = none

theorem noted_start : Noted [] 0 :=
  ⟨Or.inl rfl, iff_of_true rfl fun _ hd => absurd hd List.not_mem_nil⟩

theorem noted_step {e : StatusRequest} {t : ℤ} (hnoted : Noted past flag)
    (h : serve K flag e = some t) : Noted (past ++ [e]) t := by
  obtain rfl := serve_flag h
  by_cases hnone : e.principal = none
  · rw [if_pos hnone]
    refine ⟨hnoted.range, hnoted.unset.trans ?_⟩
    constructor
    · intro hpast d hd
      rcases List.mem_append.mp hd with hd | hd
      · exact hpast d hd
      · rwa [List.mem_singleton.mp hd]
    · exact fun hall d hd => hall d (List.mem_append_left _ hd)
  · rw [if_neg hnone]
    refine ⟨Or.inr rfl, iff_of_false (by decide) ?_⟩
    intro hall
    exact hnone (hall e (List.mem_append_right _ List.mem_cons_self))

theorem run_noted (h : EventRuns.run (serve K) 0 past = some flag) : Noted past flag := by
  apply EventRuns.run_invariant Noted (fun _ _ => True) noted_start _ (fun _ _ _ _ => trivial) h
  intro past e s t _ hnoted _ hstep
  exact noted_step hnoted hstep

theorem reflects_here_iff {e : StatusRequest}
    (h : EventRuns.run (serve K) 0 past = some flag) : Reflects K e flag ↔ NoUserBefore past e := by
  have hnoted := run_noted h
  rw [reflects_iff hnoted.range, hnoted.unset]
  rfl

end Run

/-- Every page of a worker reflects its own request if and only if no request without a principal
comes behind one with a principal. -/
theorem status_reflects_iff (K : Kore) (events : List StatusRequest) :
    (∀ past e rest flag, events = past ++ e :: rest →
      EventRuns.run (serve K) 0 past = some flag → Reflects K e flag) ↔
    EventRuns.Throughout (fun past e => EventRuns.run (serve K) 0 past ≠ none → NoUserBefore past e)
      events := by
  apply EventRuns.throughout_iff
  intro past e flag hflag
  exact reflects_here_iff hflag

def plain_symbols : Symbols where
  data name := if name = bytes "asset_status_html" then some (bytes "status") else none
  vfunc _ := none
  vvar _ := none

def request_of (principal : Option Bytes) : StatusRequest where
  symbols := plain_symbols
  surroundings := ⟨2017, none, none, none, none, none, none, some ⟨0, principal, none⟩, none, none,
    none, none, none, none⟩
  rounds := 1

/-- Behind a request with a user the page of the next one shows a user too. -/
theorem status_user_stays :
    ¬∀ (K : Kore) (events past : List StatusRequest) e rest flag, events = past ++ e :: rest →
      EventRuns.run (serve K) 0 past = some flag → Reflects K e flag := by
  intro h
  have hrun : EventRuns.run (serve reference) 0 [request_of (some (bytes "alice"))] = some 1 := by
    decide +kernel
  have hreflects := h reference _ _ (request_of none) [] 1 rfl hrun
  exact absurd rfl (hreflects.seen.mp (by rw [seen_eq]; rfl))

end StatusPage
