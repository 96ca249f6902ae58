import Ayahesa.AllocatedBuffer
import Ayahesa.ConfigSufficient
import Ayahesa.RequestView
import Ayahesa.ViewDirectives

/-! # Where rendering follows a NULL

Most strings of a view are checked or never absent. Two kinds are not: what a view function
returns, and the two variables of a request for which Kore may have no text. -/
namespace AbsentStrings

open CMemory CompatStrings CompatCopy ByteSearch KoreApi KoreBuffer HttpRequest LoopIteration
open AllocatedBuffer AppConfig AppStart ViewPasses ViewDirectives HttpView RequestView
open ViewPredefined hiding text request

/-! ## Computations that meet no NULL -/

def NullFree {α : Type} (x : C α) : Prop := x ≠ .error .nullPointer

section NullFree

variable {α β : Type}

theorem NullFree.ok (a : α) : NullFree (.ok a : C α) := fun h => by cases h

theorem NullFree.outOfBounds : NullFree (.error .outOfBounds : C α) := fun h => by cases h

theorem NullFree.bind {x : C α} {f : α → C β} (hx : NullFree x) (hf : ∀ a, NullFree (f a)) :
    NullFree (x >>= f) := by
  intro h
  rcases bind_error h with h | ⟨a, _, h⟩
  · exact hx h
  · exact hf a h

theorem NullFree.bind_option {x : C (Option α)} {f : Option α → C β} (hx : NullFree x)
    (hnone : NullFree (f none)) (hsome : ∀ a, NullFree (f (some a))) : NullFree (x >>= f) := by
  apply hx.bind
  intro r
  cases r with
  | none => exact hnone
  | some a => exact hsome a

theorem NullFree.ite {p : Prop} [Decidable p] {x y : C α} (hx : NullFree x) (hy : NullFree y) :
    NullFree (if p then x else y) := by
  split
  · exact hx
  · exact hy

theorem NullFree.map {f : α → β} {x : C α} (hx : NullFree x) : NullFree (x.map f) := by
  cases x with
  | error e =>
    intro h
    exact hx (congrArg Except.error (Except.error.inj h))
  | ok a => exact .ok _

theorem NullFree.mapM {f : α → C β} (hf : ∀ a, NullFree (f a)) (l : List α) :
    NullFree (l.mapM f) := by
  induction l with
  | nil => exact .ok _
  | cons a l ih =>
    rw [List.mapM_cons]
    exact (hf a).bind fun b => ih.bind fun bs => .ok _

/-- Behind a computation without a NULL, one is met in what follows. -/
theorem NullFree.bind_iff {x : C α} {f : α → C β} (hx : NullFree x) :
    (x >>= f) = .error .nullPointer ↔ ∃ a, x = .ok a ∧ f a = .error .nullPointer := by
  cases x with
  | error e =>
    have he : e ≠ .nullPointer := fun h => hx (congrArg Except.error h)
    constructor
    · intro h
      exact absurd (Except.error.inj h) he
    · rintro ⟨a, h, _⟩
      cases h
  | ok a =>
    constructor
    · exact fun h => ⟨a, rfl, h⟩
    · rintro ⟨c, hc, h⟩
      obtain rfl := Except.ok.inj hc
      exact h

end NullFree

/-! ## Reading and writing a region -/

section Region

variable (K : Kore) (d : Bytes) (i : ℕ)

theorem load_null_free : NullFree (load d i) := by
  unfold load
  split
  · exact .ok _
  · exact .outOfBounds

theorem store_null_free (v : UInt8) : NullFree (store d i v) := .ite (.ok _) .outOfBounds

theorem scan_null_free (stop : UInt8 → Bool) : NullFree (scan stop d) := by
  induction d with
  | nil => exact .outOfBounds
  | cons x d ih => exact .ite (.ok _) ih.map

theorem cstr_null_free : NullFree (cstr d i) := (scan_null_free _ _).bind fun _ => .ok _

theorem strchr_null_free (c : UInt8) : NullFree (strchr d i c) :=
  (scan_null_free _ _).bind fun _ => .ok _

theorem trim_null_free : NullFree (trim d i) :=
  ((scan_null_free _ _).bind fun _ => .ok _).bind fun _ =>
    ((scan_null_free _ _).bind fun _ => .ok _).bind fun _ => .ok _

theorem kore_mem_find_null_free (slen : ℕ) (needle : Bytes) :
    NullFree (kore_mem_find K d i slen needle) := by
  unfold kore_mem_find
  split
  · exact .ok _
  · exact .ite (.ok _) .outOfBounds

theorem memcpy_null_free (dst src : Block) (pos start len : ℤ) :
    NullFree (BufferSplicing.memcpy dst pos src start len) := .ite (.ok _) .outOfBounds

theorem replace_string_null_free (b : AllocBuf) (len : ℤ) (dst : Bytes) :
    NullFree (Buffer.replace_string b i len dst) := by
  refine .ite .outOfBounds (NullFree.bind ?_ fun _ => .ok _)
  exact (memcpy_null_free _ _ _ _ _).bind fun _ => (memcpy_null_free _ _ _ _ _).bind fun _ =>
    (memcpy_null_free _ _ _ _ _).bind fun _ => .ok _

theorem replace_first_string_null_free (b : AllocBuf) (src dst : Bytes) :
    NullFree (aya_buf_replace_first_string K b src dst) := by
  refine (kore_mem_find_null_free K _ _ _ _).bind_option (.ok _) fun p => ?_
  exact replace_string_null_free p b _ dst

end Region

/-! ## The passes -/

section Passes

variable (K : Kore) (S : Symbols) (b : AllocBuf)

theorem parser_null_free (token : Bytes) : NullFree (parser K b token) := by
  refine (kore_mem_find_null_free K _ _ _ _).bind_option (.ok _) fun start => ?_
  refine (strchr_null_free _ _ _).bind_option (.ok _) fun stop => ?_
  exact .ok _

theorem closed_argument_null_free (m : Match) : NullFree (closed_argument b m) :=
  (store_null_free _ _ _).bind fun _ => (trim_null_free _ _).bind fun _ => .ok _

theorem split_arguments_loop_null_free (cmdline cmdlinesz n : ℕ) (d : Bytes) (i next : ℕ)
    (argv : List ℕ) : NullFree (split_arguments_loop cmdline cmdlinesz n d i next argv) := by
  induction n generalizing d i next argv with
  | zero => exact .ok _
  | succ n ih =>
    refine .ite ((load_null_free _ _).bind fun c => .ite ?_ (ih _ _ _ _)) (.ok _)
    exact (store_null_free _ _ _).bind fun _ => (trim_null_free _ _).bind fun _ => ih _ _ _ _

theorem split_arguments_null_free (d : Bytes) (cmdline cmdlinesz : ℕ) :
    NullFree (split_arguments d cmdline cmdlinesz) := by
  refine (strchr_null_free _ _ _).bind_option (.ok _) fun found => ?_
  exact (split_arguments_loop_null_free _ _ _ _ _ _ _).bind fun _ =>
    (trim_null_free _ _).bind fun _ => .ite (.ok _) .outOfBounds

theorem substitute_null_free {token : Bytes} {text : Bytes → ℕ → ℕ → C (Bytes × Option Bytes)}
    (htext : ∀ d p sz, NullFree (text d p sz)) : NullFree (substitute K token text b) := by
  refine (parser_null_free K b token).bind_option (.ok _) fun m => ?_
  refine .ite (.ok _) ((closed_argument_null_free b m).bind fun closed => ?_)
  refine (htext _ _ _).bind fun r => ?_
  obtain ⟨d, str⟩ := r
  cases str with
  | none => exact .ok _
  | some str => exact (replace_string_null_free _ _ _ _).bind fun _ => .ok _

theorem named_text_null_free (lookup : Bytes → Option Bytes) (d : Bytes) (p sz : ℕ) :
    NullFree (named_text lookup d p sz) := (cstr_null_free _ _).bind fun _ => .ok _

theorem find_marks_null_free (first second : Bytes) : NullFree (find_marks K b first second) := by
  refine (kore_mem_find_null_free K _ _ _ _).bind_option (.ok _) fun start => ?_
  refine (kore_mem_find_null_free K _ _ _ _).bind_option (.ok _) fun stop => ?_
  exact .ok _

theorem process_comment_null_free : NullFree (process_comment_body K b) := by
  refine (find_marks_null_free K b _ _).bind_option (.ok _) fun marks => ?_
  exact (replace_string_null_free _ _ _ _).bind fun _ => .ok _

theorem find_statement_null_free : NullFree (find_statement K b) := by
  refine (parser_null_free K b _).bind_option (.ok _) fun m => ?_
  refine .ite (.ok _) ((closed_argument_null_free b m).bind fun closed => ?_)
  refine (kore_mem_find_null_free K _ _ _ _).bind_option (.ok _) fun stop => ?_
  exact (kore_mem_find_null_free K _ _ _ _).bind fun _ => .ok _

theorem finish_statement_null_free (middle : Option ℕ) :
    NullFree (finish_statement K b middle) := by
  cases middle with
  | none => exact (replace_first_string_null_free K _ _ _).bind fun _ => .ok _
  | some i =>
    refine (find_marks_null_free K b _ _).bind_option (.ok _) fun marks => ?_
    exact (replace_string_null_free _ _ _ _).bind fun _ =>
      (replace_first_string_null_free K _ _ _).bind fun _ => .ok _

theorem process_statement_null_free : NullFree (process_statement_body K S b) := by
  refine (find_statement_null_free K b).bind fun found => ?_
  cases found with
  | inl buffer => exact .ok _
  | inr s =>
    refine (cstr_null_free _ _).bind fun var => .ite (.ok _) ?_
    exact (replace_string_null_free _ _ _ _).bind fun _ => finish_statement_null_free K _ _

theorem template_body_null_free (begin : ℕ) : NullFree (template_body K b begin) := by
  refine (kore_mem_find_null_free K _ _ _ _).bind_option (.ok _) fun stop => ?_
  exact (store_null_free _ _ _).bind fun _ => (cstr_null_free _ _).bind fun _ => .ok _

theorem process_template_null_free : NullFree (process_template K S b) := by
  refine (parser_null_free K b _).bind_option (.ok _) fun m => ?_
  refine .ite (.ok _) ((closed_argument_null_free b m).bind fun closed => ?_)
  refine (cstr_null_free _ _).bind fun name => ?_
  dsimp only
  cases include_asset S name with
  | none => exact .ok _
  | some asset =>
    refine (template_body_null_free K _ _).bind fun r => ?_
    obtain ⟨buffer, body⟩ := r
    cases body with
    | none => exact .ok _
    | some body => exact replace_first_string_null_free K _ _ _

end Passes

/-! ## The call of a view function -/

/-- The strings of the call that a round of `process_function` makes, if it comes to a call. -/
def called (K : Kore) (buffer : AllocBuf) : C (Option (List Bytes)) := do
  match ← parser K buffer TOk_FUNCTION with
  | none => return none
  | some m =>
    if m.argumentsz = 0 then return none
    else do
      let (buffer, argument) ← closed_argument buffer m
      let (d, argv) ← split_arguments (Buffer.region buffer) argument m.argumentsz.toNat
      if argv = [] then return none
      else do
        let args ← argv.mapM (cstr d)
        return some args

/-- The function of the call exists and returns a string. -/
def Answered (K : Kore) (S : Symbols) (buffer : AllocBuf) : Prop :=
  ∀ args, called K buffer = .ok (some args) → call_vfunc S args ≠ none

theorem function_text_null_iff (S : Symbols) (d : Bytes) (p sz : ℕ) :
    function_text S d p sz = .error .nullPointer ↔
      ∃ d' argv args, split_arguments d p sz = .ok (d', argv) ∧ argv ≠ [] ∧
        argv.mapM (cstr d') = .ok args ∧ call_vfunc S args = none := by
  rw [function_text, (split_arguments_null_free d p sz).bind_iff]
  constructor
  · rintro ⟨⟨d', argv⟩, hsplit, h⟩
    dsimp only at h
    split at h
    · cases h
    · next hne =>
      obtain ⟨args, hargs, h⟩ := (NullFree.mapM (cstr_null_free d') argv).bind_iff.mp h
      cases hcall : call_vfunc S args with
      | none => exact ⟨d', argv, args, hsplit, hne, hargs, hcall⟩
      | some str =>
        rw [hcall] at h
        cases h
  · rintro ⟨d', argv, args, hsplit, hne, hargs, hcall⟩
    refine ⟨(d', argv), hsplit, ?_⟩
    dsimp only
    rw [if_neg hne, (NullFree.mapM (cstr_null_free d') argv).bind_iff]
    exact ⟨args, hargs, by rw [hcall]⟩

theorem substitute_null_iff (K : Kore) (b : AllocBuf) {token : Bytes}
    {text : Bytes → ℕ → ℕ → C (Bytes × Option Bytes)} :
    substitute K token text b = .error .nullPointer ↔
      ∃ m closed p, parser K b token = .ok (some m) ∧ m.argumentsz ≠ 0 ∧
        closed_argument b m = .ok (closed, p) ∧
        text (Buffer.region closed) p m.argumentsz.toNat = .error .nullPointer := by
  rw [substitute, (parser_null_free K b token).bind_iff]
  constructor
  · rintro ⟨hit, hp, h⟩
    cases hit with
    | none => cases h
    | some m =>
      dsimp only at h
      split at h
      · cases h
      · next hsz =>
        obtain ⟨⟨closed, p⟩, hclosed, h⟩ := (closed_argument_null_free b m).bind_iff.mp h
        refine ⟨m, closed, p, hp, hsz, hclosed, ?_⟩
        rcases bind_error h with h | ⟨⟨d, str⟩, -, h⟩
        · exact h
        · cases str with
          | none => cases h
          | some str =>
            have hfree : NullFree (do
                let buffer ← Buffer.replace_string (Buffer.written closed d) m.posx_start
                  m.posx_length str
                return Step.next buffer) :=
              (replace_string_null_free _ _ _ _).bind fun _ => .ok _
            exact absurd h hfree
  · rintro ⟨m, closed, p, hp, hsz, hclosed, h⟩
    refine ⟨some m, hp, ?_⟩
    dsimp only
    rw [if_neg hsz, hclosed]
    simp only [bind, Except.bind, h]

theorem called_eq_some_iff {K : Kore} {b : AllocBuf} {args : List Bytes} :
    called K b = .ok (some args) ↔
      ∃ m closed p, parser K b TOk_FUNCTION = .ok (some m) ∧ m.argumentsz ≠ 0 ∧
        closed_argument b m = .ok (closed, p) ∧
        ∃ d argv, split_arguments (Buffer.region closed) p m.argumentsz.toNat = .ok (d, argv) ∧
          argv ≠ [] ∧ argv.mapM (cstr d) = .ok args := by
  constructor
  · intro h
    obtain ⟨hit, hp, h⟩ := bind_ok h
    cases hit with
    | none => cases h
    | some m =>
      dsimp only at h
      split at h
      · cases h
      · next hsz =>
        obtain ⟨⟨closed, p⟩, hclosed, h⟩ := bind_ok h
        obtain ⟨⟨d, argv⟩, hsplit, h⟩ := bind_ok h
        dsimp only at h
        split at h
        · cases h
        · next hne =>
          obtain ⟨args', hargs, h⟩ := bind_ok h
          obtain rfl := Option.some.inj (Except.ok.inj h)
          exact ⟨m, closed, p, hp, hsz, hclosed, d, argv, hsplit, hne, hargs⟩
  · rintro ⟨m, closed, p, hp, hsz, hclosed, d, argv, hsplit, hne, hargs⟩
    simp only [called, hp, hclosed, hsplit, hargs, hsz, hne, bind, Except.bind, pure, Except.pure,
      if_false]

theorem process_function_null_iff (K : Kore) (S : Symbols) (b : AllocBuf) :
    process_function_body K S b = .error .nullPointer ↔ ¬Answered K S b := by
  simp only [Answered, not_forall, not_not]
  rw [process_function_body, substitute_null_iff]
  constructor
  · rintro ⟨m, closed, p, hp, hsz, hclosed, htext⟩
    obtain ⟨d, argv, args, hsplit, hne, hargs, hcall⟩ := (function_text_null_iff S _ _ _).mp htext
    exact ⟨args, called_eq_some_iff.mpr ⟨m, closed, p, hp, hsz, hclosed, d, argv, hsplit, hne,
      hargs⟩, hcall⟩
  · rintro ⟨args, hcalled, hcall⟩
    obtain ⟨m, closed, p, hp, hsz, hclosed, d, argv, hsplit, hne, hargs⟩ :=
      called_eq_some_iff.mp hcalled
    exact ⟨m, closed, p, hp, hsz, hclosed,
      (function_text_null_iff S _ _ _).mpr ⟨d, argv, args, hsplit, hne, hargs, hcall⟩⟩

/-! ## The predefined variables -/

/-- With the settings of the application in place, the pass meets a NULL only for a request
without an agent or without an address. -/
theorem request_predef_vars_null (K : Kore) (V : Server) (request : Request) (b : AllocBuf)
    {name env domain : Bytes} (hname : app_name V.app = .ok (some name))
    (henv : app_environment V.app = .ok (some env))
    (hdomain : config_get_str V.app (bytes "app.domain") none = .ok (some domain))
    (hlen : V.domainname.length = 128) (hvalue : 0 ∉ V.app.value) (hclean : 0 ∉ domain)
    (h : request_predef_vars K V request b = .error .nullPointer) :
    ¬(request.agent ≠ none ∧ request.Located) := by
  rintro ⟨hagent, hlocated⟩
  have hcomposed := app_domainname_eq V.copy hdomain hlen hvalue hclean
  obtain ⟨year, hyear, four, hfour⟩ := year_text V.clock
  obtain ⟨agent, hsent⟩ := Option.ne_none_iff_exists'.mp hagent
  have hknown : http_remote_addr V.inet request ≠ none := fun hnone =>
    (http_remote_addr_none_iff V.inet request).mp hnone hlocated
  obtain ⟨remote, hremote⟩ := Option.ne_none_iff_exists'.mp hknown
  have hcopied : ∀ (src : Bytes) (len : ℕ), copied (some src) (len + 1) =
      .ok ((c_string src).take len) := fun src len => copied_some src (Nat.succ_pos len)
  -- An instance that leaves no room for the domain stops the pass before any string is read.
  by_cases hroom : domain.head? = some 46 ∨ V.app.value.length < 127
  · rw [if_pos hroom] at hcomposed
    simp only [request_predef_vars, surroundings, app_uptime_eq, hname, henv, hcomposed,
      process_predef_vars, hyear, hfour, hsent, hremote, hcopied,
      ViewPredefined.text, bind, Except.bind, pure, Except.pure] at h
    cases h
  · rw [if_neg hroom] at hcomposed
    simp only [request_predef_vars, surroundings, app_uptime_eq, hname, henv, hcomposed, bind,
      Except.bind] at h
    cases h

theorem text_ok {s : Option Bytes} {r : Bytes} (h : ViewPredefined.text s = .ok r) : s ≠ none := by
  rintro rfl
  cases h

/-- The pass reads the agent and the address of every request, whatever the buffer holds. -/
theorem request_predef_vars_ok {K : Kore} {V : Server} {request : Request} {b b' : AllocBuf}
    (h : request_predef_vars K V request b = .ok b') :
    request.agent ≠ none ∧ request.Located := by
  obtain ⟨vars, hvars, h⟩ := bind_ok h
  obtain ⟨-, hsent, haddress⟩ := surroundings_request hvars
  obtain ⟨_, _, h⟩ := bind_ok h
  obtain ⟨_, _, h⟩ := bind_ok h
  obtain ⟨_, _, h⟩ := bind_ok h
  obtain ⟨_, _, h⟩ := bind_ok h
  obtain ⟨_, _, h⟩ := bind_ok h
  obtain ⟨_, _, h⟩ := bind_ok h
  obtain ⟨_, _, h⟩ := bind_ok h
  obtain ⟨_, _, h⟩ := bind_ok h
  obtain ⟨_, _, h⟩ := bind_ok h
  obtain ⟨_, _, h⟩ := bind_ok h
  obtain ⟨_, _, h⟩ := bind_ok h
  obtain ⟨_, _, h⟩ := bind_ok h
  obtain ⟨_, hagent, h⟩ := bind_ok h
  obtain ⟨_, hremote, _⟩ := bind_ok h
  refine ⟨hsent ▸ text_ok hagent, ?_⟩
  by_contra hlost
  apply text_ok hremote
  exact haddress.trans ((http_remote_addr_none_iff V.inet request).mpr hlost)

/-! ## The whole run -/

/-- A state in which a round of `process_function` starts, in the run on a new buffer. -/
def FunctionRound (K : Kore) (S : Symbols) (b u : AllocBuf) : Prop :=
  ∃ n c, view_passes K S n b = some (.ok c) ∧ Visits (process_function_body K S) c u

section Run

variable (K : Kore) (S : Symbols) (hdlr_extra : Option RequestData)

theorem run_null_free {body : AllocBuf → C (Step AllocBuf)} (h : ∀ b, NullFree (body b)) (n : ℕ)
    (b : AllocBuf) : run body n b ≠ some (.error .nullPointer) := by
  intro hn
  obtain ⟨u, _, hu⟩ := run_error_iff.mp ⟨n, hn⟩
  exact h u hu

theorem process_user_vars_null_free (n : ℕ) (b : AllocBuf) :
    process_user_vars K hdlr_extra n b ≠ some (.error .nullPointer) := by
  unfold process_user_vars
  cases hdlr_extra.bind RequestData.session with
  | none => simp
  | some session =>
    exact run_null_free (fun u => substitute_null_free K u (named_text_null_free _)) n b

theorem view_passes_null_free (n : ℕ) (b : AllocBuf) :
    view_passes K S n b ≠ some (.error .nullPointer) := by
  intro h
  rcases andThen_eq_error_iff.mp h with h | ⟨b₁, -, h⟩
  · exact process_template_null_free K S b (Option.some.inj h)
  rcases andThen_eq_error_iff.mp h with h | ⟨b₂, -, h⟩
  · exact run_null_free (fun u => substitute_null_free K u (named_text_null_free _)) n b₁ h
  · exact run_null_free (process_comment_null_free K) n b₂ h

variable {K S hdlr_extra} {b c : AllocBuf} {n : ℕ}

/-- The passes in front of the variables meet a NULL only in a round that calls a function
without an answer. -/
theorem directive_passes_null
    (h : directive_passes K S hdlr_extra n b = some (.error .nullPointer)) :
    ∃ u, FunctionRound K S b u ∧ ¬Answered K S u := by
  rcases andThen_eq_error_iff.mp h with h | ⟨b₁, hb₁, h⟩
  · exact absurd h (view_passes_null_free K S n b)
  rcases andThen_eq_error_iff.mp h with h | ⟨b₂, -, h⟩
  · obtain ⟨u, hu, hnull⟩ := run_error_iff.mp ⟨n, h⟩
    exact ⟨u, ⟨n, b₁, hb₁, hu⟩, (process_function_null_iff K S u).mp hnull⟩
  rcases andThen_eq_error_iff.mp h with h | ⟨b₃, -, h⟩
  · exact absurd h (run_null_free (process_statement_null_free K S) n b₂)
  · exact absurd h (process_user_vars_null_free K hdlr_extra n b₃)

theorem directive_passes_answered (h : directive_passes K S hdlr_extra n b = some (.ok c))
    {u : AllocBuf} (hu : FunctionRound K S b u) : Answered K S u := by
  obtain ⟨b₁, hb₁, h⟩ := andThen_eq_ok_iff.mp h
  obtain ⟨b₂, hb₂, -⟩ := andThen_eq_ok_iff.mp h
  obtain ⟨m, b₁', hm, hvisits⟩ := hu
  obtain rfl := Except.ok.inj ((view_passes_settles K S b).unique hm hb₁)
  by_contra hlacks
  have hnull := (process_function_null_iff K S u).mpr hlacks
  obtain ⟨k, hk⟩ := run_error_iff.mpr ⟨u, hvisits, hnull⟩
  cases run_unique hk hb₂

end Run

theorem at_sign_found (K : Kore) (heap : ℕ → ℕ → UInt8) {baseview : Bytes} (hat : 64 ∈ baseview) :
    ∃ i, kore_mem_find K (Buffer.region (kore_buf_alloc heap baseview)) 0
      (Buffer.offset (kore_buf_alloc heap baseview)) (bytes "@") = .ok (some i) := by
  have hne : bytes "@" ≠ [] := by decide
  rw [(kore_buf_alloc_holds heap baseview).mem_find K hne]
  cases hf : find (bytes "@") baseview with
  | some i => exact ⟨i, rfl⟩
  | none =>
    have hword : bytes "@" = [64] := by decide
    have hfree := (find_eq_none_iff hne).mp hf
    rw [hword, free_iff, List.singleton_infix_iff] at hfree
    exact absurd hat hfree

theorem at_sign_missing (K : Kore) (heap : ℕ → ℕ → UInt8) {baseview : Bytes}
    (hat : 64 ∉ baseview) :
    kore_mem_find K (Buffer.region (kore_buf_alloc heap baseview)) 0
      (Buffer.offset (kore_buf_alloc heap baseview)) (bytes "@") = .ok none := by
  have hne : bytes "@" ≠ [] := by decide
  have hword : bytes "@" = [64] := by decide
  have hfree : Free (bytes "@") baseview := by
    rw [hword, free_iff, List.singleton_infix_iff]
    exact hat
  rw [(kore_buf_alloc_holds heap baseview).mem_find K hne, (find_eq_none_iff hne).mpr hfree]

/-- What a page with an `@` asks for. -/
structure Supplied (K : Kore) (S : Symbols) (heap : ℕ → ℕ → UInt8) (request : Request)
    (baseview : Bytes) : Prop where
  calls : ∀ u, FunctionRound K S (kore_buf_alloc heap baseview) u → Answered K S u
  agent : request.agent ≠ none
  address : request.Located

/-- No NULL is used, in any number of rounds and whatever the memory held, where each round of
`process_function` finds a call with an answer, and the request has an agent and an address. A
view with an `@` that is rendered to its end had all of this. -/
theorem request_view_null_free (K : Kore) (S : Symbols) (V : Server) (request : Request)
    (heap : ℕ → ℕ → UInt8) (code : ℤ) (view name env domain : Bytes)
    (hname : app_name V.app = .ok (some name)) (henv : app_environment V.app = .ok (some env))
    (hdomain : config_get_str V.app (bytes "app.domain") none = .ok (some domain))
    (hlen : V.domainname.length = 128) (hvalue : 0 ∉ V.app.value) (hclean : 0 ∉ domain) :
    ((∀ baseview, include_asset S view = some baseview → 64 ∈ baseview →
        Supplied K S heap request baseview) →
      ∀ n, request_view (kore_buf_alloc heap) K S V request n code view ≠
        some (.error .nullPointer)) ∧
    ((∃ n reply, request_view (kore_buf_alloc heap) K S V request n code view =
        some (.ok reply)) →
      ∀ baseview, include_asset S view = some baseview → 64 ∈ baseview →
        Supplied K S heap request baseview) := by
  constructor
  · intro hcond n hnull
    cases hasset : include_asset S view with
    | none => simp [request_view, hasset] at hnull
    | some baseview =>
      by_cases hat : 64 ∈ baseview
      · obtain ⟨i, hfind⟩ := at_sign_found K heap hat
        obtain ⟨hcalls, hagent, haddress⟩ := hcond baseview hasset hat
        simp only [request_view, hasset, hfind] at hnull
        rcases andThen_eq_error_iff.mp hnull with hnull | ⟨b, -, hnull⟩
        · obtain ⟨u, hu, hlacks⟩ := directive_passes_null hnull
          exact hlacks (hcalls u hu)
        rcases andThen_eq_error_iff.mp hnull with hnull | ⟨b', -, hnull⟩
        · exact request_predef_vars_null K V request b hname henv hdomain hlen hvalue hclean
            (Option.some.inj hnull) ⟨hagent, haddress⟩
        · cases hnull
      · simp only [request_view, hasset, at_sign_missing K heap hat] at hnull
        cases hnull
  · rintro ⟨n, reply, hreply⟩ baseview hasset hat
    obtain ⟨i, hfind⟩ := at_sign_found K heap hat
    simp only [request_view, hasset, hfind] at hreply
    obtain ⟨b, hb, hreply⟩ := andThen_eq_ok_iff.mp hreply
    obtain ⟨b', hb', -⟩ := andThen_eq_ok_iff.mp hreply
    obtain ⟨hagent, haddress⟩ := request_predef_vars_ok (Option.some.inj hb')
    exact ⟨fun u hu => directive_passes_answered hb hu, hagent, haddress⟩

def page (text : Bytes) : Symbols where
  data name := if name = bytes "asset_error_html" then some text else none
  vfunc name := if name = bytes "cart" then some fun _ => some (bytes "3 items") else none
  vvar _ := none

/-- A server whose application has all three settings. -/
def site : Server where
  copy := ConfigSufficient.plain_copy
  inet := ⟨fun _ => bytes "10.0.0.1", fun _ => bytes "::1"⟩
  clock := ⟨117, bytes "Sat, 01 Jul 2017", 90061, by decide, by decide⟩
  app :=
    let app := application_create (bytes "alpha")
    { app with config := { app.config with
        alloc_cnt := 3
        ptr := [some ⟨bytes "app.name", .T_STRING (bytes "shop")⟩,
          some ⟨bytes "app.env", .T_STRING (bytes "live")⟩,
          some ⟨bytes "app.domain", .T_STRING (bytes "q.net")⟩] } }
  domainname := List.replicate 128 (some 0)

def visit (agent : Option Bytes) : Request where
  path := bytes "/cart"
  host := bytes "q.net"
  agent := agent
  query_string := none
  method_text := bytes "GET"
  header _ := none
  owner := .AF_INET [10, 0, 0, 1]
  hdlr_extra := none

def zeros (_block _index : ℕ) : UInt8 := 0

/-- The page calls its function and names its agent. -/
theorem request_view_null_free_cart :
    Supplied reference (page (bytes "@function(cart) for @agent")) zeros
      (visit (some (bytes "curl"))) (bytes "@function(cart) for @agent") ∧
    ∀ n, request_view (kore_buf_alloc zeros) reference (page (bytes "@function(cart) for @agent"))
      site (visit (some (bytes "curl"))) n 500 (bytes "error") ≠ some (.error .nullPointer) := by
  have hview : include_asset (page (bytes "@function(cart) for @agent")) (bytes "error") =
      some (bytes "@function(cart) for @agent") := by decide +kernel
  have hreply : request_view (kore_buf_alloc zeros) reference
      (page (bytes "@function(cart) for @agent")) site (visit (some (bytes "curl"))) 2 500
      (bytes "error") = some (.ok ⟨500, bytes "text/html",
        bytes "3 items" ++ 0 :: bytes " for curl"⟩) := by decide +kernel
  obtain ⟨henough, hneeded⟩ := request_view_null_free reference
    (page (bytes "@function(cart) for @agent")) site (visit (some (bytes "curl"))) zeros 500
    (bytes "error") (bytes "shop") (bytes "live") (bytes "q.net") (by decide) (by decide)
    (by decide) List.length_replicate (by decide) (by decide)
  have hsupplied := hneeded ⟨2, _, hreply⟩
  exact ⟨hsupplied _ hview (by decide), henough hsupplied⟩

/-- A client that sends no `User-Agent` header asks for a page with a variable. -/
theorem agent_missing :
    ¬∀ (K : Kore) (S : Symbols) (V : Server) (request : Request) (heap : ℕ → ℕ → UInt8) (code : ℤ)
      (view name env domain : Bytes), app_name V.app = .ok (some name) →
      app_environment V.app = .ok (some env) →
      config_get_str V.app (bytes "app.domain") none = .ok (some domain) →
      V.domainname.length = 128 → 0 ∉ V.app.value → 0 ∉ domain →
      ∀ n, request_view (kore_buf_alloc heap) K S V request n code view ≠
        some (.error .nullPointer) := by
  intro h
  refine h reference (page (bytes "@uri")) site (visit none) zeros 500 (bytes "error")
    (bytes "shop") (bytes "live") (bytes "q.net") (by decide) (by decide) (by decide)
    List.length_replicate (by decide) (by decide) 1 ?_
  decide +kernel

end AbsentStrings
