import Ayahesa.ConnectionCounter
import Ayahesa.IntegerFormatting
import Ayahesa.ViewDirectives

/-! # Counters on the status page

The counters are unsigned, and the function that makes a text of them takes an `int`. -/
namespace StatusCounters

open CMemory CompatStrings DecimalText KoreApi KoreBuffer LoopIteration ViewPasses
open ViewDirectives ByteSearch ConnectionCounter IntegerFormatting

def app_request_count (internal_counter : Counter) : ℕ := internal_counter.req_count

def app_active_conncount (internal_counter : Counter) : ℕ := internal_counter.conn_active

/-- An `unsigned int` that is passed as an `int`, on a machine with two's complement. -/
def to_int (n : ℕ) : ℤ := if n < 2 ^ 31 then n else (n : ℤ) - 2 ^ 32

def status_get_requests (buf : StaticBuf) (internal_counter : Counter) : C Bytes :=
  itoa_string buf (to_int (app_request_count internal_counter))

def status_get_active_conn (buf : StaticBuf) (internal_counter : Counter) : C Bytes :=
  itoa_string buf (to_int (app_active_conncount internal_counter))

/-- The program with the two functions in its symbol table; neither of them faults. -/
def with_counters (S : Symbols) (buf : StaticBuf) (internal_counter : Counter) : Symbols :=
  { S with vfunc := fun name =>
      if name = bytes "status_get_requests" then
        some fun _ => (status_get_requests buf internal_counter).toOption
      else if name = bytes "status_get_active_conn" then
        some fun _ => (status_get_active_conn buf internal_counter).toOption
      else S.vfunc name }

/-- Wherever the directive is the next one, its round puts the text in its place. -/
def Puts (K : Kore) (S : Symbols) (name text : Bytes) : Prop :=
  ∀ X Y length, Free TOk_FUNCTION X → ∃ capacity,
    process_function_body K S
        (⟨X ++ (TOk_FUNCTION ++ (name ++ TOk_CLOSE :: Y)), length⟩ : KoreBuf) =
      .ok (.next ⟨X ++ (text ++ 0 :: Y), capacity⟩)

/-! ## What a directive puts into the page -/

structure Named (name : Bytes) : Prop where
  plain : Plain name
  named : name ≠ []
  blankless : ∀ c ∈ name, isspace c = false
  lone : comma ∉ name

section Directive

variable {K : Kore} {S : Symbols} {name text : Bytes}

theorem function_text_name (left right : Bytes) (sz : ℕ) (hname : Named name)
    (hcall : call_vfunc S [name] = some text) :
    function_text S (left ++ (name ++ 0 :: right)) left.length sz =
      .ok (left ++ (name ++ 0 :: right), some text) := by
  have hcomma : strchr (left ++ (name ++ 0 :: right)) left.length comma = .ok none :=
    strchr_ended right hname.lone hname.plain.clean (by decide)
  have hread : cstr (left ++ (name ++ 0 :: right)) left.length = .ok name :=
    cstr_at right hname.plain.clean
  simp only [function_text, split_arguments, hcomma, bind, Except.bind, pure, Except.pure,
    List.mapM_cons, List.mapM_nil, hread, hcall, List.cons_ne_nil, if_false]

theorem function_round (K : Kore) (hname : Named name) (hcall : call_vfunc S [name] = some text)
    {X : Bytes} (Y : Bytes) (length : ℕ) (hX : Free TOk_FUNCTION X) :
    ∃ capacity, process_function_body K S
        (⟨X ++ (TOk_FUNCTION ++ (name ++ TOk_CLOSE :: Y)), length⟩ : KoreBuf) =
      .ok (.next ⟨X ++ (text ++ 0 :: Y), capacity⟩) := by
  have htrimmed := trimmed_of_blankless hname.blankless
  have hround : process_function_body K S
      (⟨X ++ (TOk_FUNCTION ++ (name ++ TOk_CLOSE :: Y)), length⟩ : KoreBuf) = _ :=
    substitute_at K TOk_FUNCTION_token hname.plain hname.named hX rfl
  have htext := function_text_name (S := S) (X ++ TOk_FUNCTION) Y name.length hname hcall
  rw [List.length_append, List.append_assoc] at htext
  rw [leading_of_trimmed htrimmed, wiped_of_trimmed htrimmed, Nat.add_zero, htext] at hround
  simp only [bind, Except.bind] at hround
  have hcut := @replace_string_at ⟨X ++ (TOk_FUNCTION ++ (name ++ 0 :: Y)), length⟩ X.length
    (TOk_FUNCTION.length + name.length) X (TOk_FUNCTION ++ name) (0 :: Y) text (by simp) rfl
    (by simp)
  rw [hcut] at hround
  exact ⟨_, hround⟩

theorem puts_iff (K : Kore) (hname : Named name) {shown : Bytes}
    (hcall : call_vfunc S [name] = some shown) : Puts K S name text ↔ text = shown := by
  constructor
  · intro hputs
    obtain ⟨n, hn⟩ := hputs [] [] 0 (free_nil TOk_FUNCTION_token.head.ne_nil)
    obtain ⟨m, hm⟩ := function_round K hname hcall [] 0 (free_nil TOk_FUNCTION_token.head.ne_nil)
    have hsame := congrArg KoreBuf.data (Step.next.inj (Except.ok.inj (hn.symm.trans hm)))
    exact List.append_cancel_right hsame
  · rintro rfl X Y length hX
    exact function_round K hname hcall Y length hX

end Directive

theorem status_get_requests_named : Named (bytes "status_get_requests") :=
  ⟨⟨by decide, by decide⟩, by decide, by decide +kernel, by decide⟩

theorem status_get_active_conn_named : Named (bytes "status_get_active_conn") :=
  ⟨⟨by decide, by decide⟩, by decide, by decide +kernel, by decide⟩

/-! ## A counter as text -/

theorem to_int_range {n : ℕ} (h : n < 2 ^ 32) : -2 ^ 31 ≤ to_int n ∧ to_int n < 2 ^ 31 := by
  have hlt : (n : ℤ) < 2 ^ 32 := by exact_mod_cast h
  unfold to_int
  split
  · constructor <;> omega
  · constructor <;> omega

theorem to_int_iff (n : ℕ) : to_int n = n ↔ n < 2 ^ 31 := by
  unfold to_int
  split
  · next hn => exact iff_of_true rfl hn
  · next hn => exact iff_of_false (by omega) hn

theorem decimal_inj {i j : ℤ} : decimal i = decimal j ↔ i = j := by
  refine ⟨fun h => ?_, congrArg decimal⟩
  have hread := congrArg read_decimal h
  rw [read_decimal_decimal, read_decimal_decimal] at hread
  exact Option.some.inj hread

section Counter

variable {S : Symbols} {buf : StaticBuf} {internal_counter : Counter}

theorem call_requests (h : internal_counter.req_count < 2 ^ 32) :
    call_vfunc (with_counters S buf internal_counter) [bytes "status_get_requests"] =
      some (decimal (to_int internal_counter.req_count)) := by
  have htext := itoa_string_eq buf (to_int_range h)
  simp only [call_vfunc, with_counters, List.headD_cons, if_true, status_get_requests,
    app_request_count, htext, Except.toOption, Option.map_some]
  rw [c_string_of_clean (decimal_clean _)]

theorem call_active_conn (h : internal_counter.conn_active < 2 ^ 32) :
    call_vfunc (with_counters S buf internal_counter) [bytes "status_get_active_conn"] =
      some (decimal (to_int internal_counter.conn_active)) := by
  have hother : bytes "status_get_active_conn" ≠ bytes "status_get_requests" := by decide
  have htext := itoa_string_eq buf (to_int_range h)
  simp only [call_vfunc, with_counters, List.headD_cons, if_neg hother, if_true,
    status_get_active_conn, app_active_conncount, htext, Except.toOption, Option.map_some]
  rw [c_string_of_clean (decimal_clean _)]

/-- A counter is shown as it is if and only if it fits the type of the formatter. -/
theorem puts_counter_iff (K : Kore) {name : Bytes} (hname : Named name) {n : ℕ}
    (hcall : call_vfunc S [name] = some (decimal (to_int n))) :
    Puts K S name (decimal n) ↔ n < 2 ^ 31 := by
  rw [puts_iff K hname hcall, decimal_inj, ← to_int_iff n]
  exact eq_comm

end Counter

/-! ## Runs of connections -/

def opened (events : List Event) : ℕ := events.count .connect

section Run

variable {W : Websocket} {events : List Event} {s : Server}

theorem postproc_requests (counter : Counter) :
    (application_postproc counter).req_count = counter.req_count := by
  obtain ⟨req_count, conn_active⟩ := counter
  rfl

theorem step_requests {t : Server} {e : Event} (howned : ∀ c ∈ s.connections, Owned c)
    (h : step W s e = some t) : t.internal_counter.req_count =
      if e = .connect then (s.internal_counter.req_count + 1) % 2 ^ 32
      else s.internal_counter.req_count := by
  cases e with
  | connect =>
    obtain rfl := Option.some.inj h
    rfl
  | close i =>
    obtain ⟨c, -, -, hcounter⟩ := close_inv howned h
    rw [hcounter, if_neg Event.noConfusion]
    cases c.proto with
    | CONN_PROTO_HTTP => exact postproc_requests _
    | CONN_PROTO_WEBSOCKET => rfl
  | upgrade i =>
    obtain ⟨c, -, rfl⟩ := Option.map_eq_some_iff.mp h
    rfl

def Requests (events : List Event) (s : Server) : Prop :=
  s.internal_counter.req_count = opened events % 2 ^ 32

theorem run_requests (h : EventRuns.run (step W) Server.start events = some s) :
    Requests events s := by
  have hstart : Requests [] Server.start := (Nat.zero_mod _).symm
  apply EventRuns.run_invariant Requests (fun _ _ => True) hstart _ (fun _ _ _ _ => trivial) h
  intro past e s t hs hcount _ hstep
  unfold Requests at hcount ⊢
  rw [step_requests (run_owned hs).1 hstep, hcount, opened, opened, List.count_append]
  by_cases he : e = .connect
  · subst he
    rw [if_pos rfl, List.count_singleton_self]
    omega
  · rw [if_neg he, List.count_singleton, if_neg (by simpa using he), Nat.add_zero]

end Run

/-- In every state of a run with fewer than 2^32 connections, the page shows the connections opened
exactly up to 2^31 - 1 of them, and the active ones exactly up to a counter of 2^31 - 1. -/
theorem status_counters_iff (K : Kore) (S : Symbols) (W : Websocket) (buf : StaticBuf)
    (events : List Event) (s : Server)
    (hrun : EventRuns.run (step W) Server.start events = some s)
    (hopened : opened events < 2 ^ 32) :
    (Puts K (with_counters S buf s.internal_counter) (bytes "status_get_requests")
      (decimal (opened events)) ↔ opened events < 2 ^ 31) ∧
    (Puts K (with_counters S buf s.internal_counter) (bytes "status_get_active_conn")
      (decimal s.internal_counter.conn_active) ↔ s.internal_counter.conn_active < 2 ^ 31) := by
  have hrequests := run_requests hrun
  rw [Requests, Nat.mod_eq_of_lt hopened] at hrequests
  have hcall := @call_requests S buf s.internal_counter (hrequests ▸ hopened)
  rw [hrequests] at hcall
  have hactive := (run_owned hrun).2
  exact ⟨puts_counter_iff K status_get_requests_named hcall,
    puts_counter_iff K status_get_active_conn_named (call_active_conn hactive)⟩

/-- Two connections were opened, one of them was closed. -/
theorem status_counters_iff_closed :
    Puts KoreApi.reference (with_counters ⟨fun _ => none, fun _ => none, fun _ => none⟩
      StaticBuf.zero ⟨2, 1⟩) (bytes "status_get_requests") (decimal 2) ∧
    Puts KoreApi.reference (with_counters ⟨fun _ => none, fun _ => none, fun _ => none⟩
      StaticBuf.zero ⟨2, 1⟩) (bytes "status_get_active_conn") (decimal 1) := by
  obtain ⟨hrequests, hactive⟩ := status_counters_iff KoreApi.reference
    ⟨fun _ => none, fun _ => none, fun _ => none⟩ ConnectionCounter.reference StaticBuf.zero
    [.connect, .connect, .close 0] _ rfl (by decide)
  exact ⟨hrequests.mpr (by decide), hactive.mpr (by decide)⟩

theorem run_connects (W : Websocket) (n : ℕ) :
    ∃ s, EventRuns.run (step W) Server.start (List.replicate n .connect) = some s := by
  have hstep : ∀ (past : List Event) e t, True → e = Event.connect →
      ∃ u, step W t e = some u ∧ True := by
    rintro past e t - rfl
    exact ⟨_, rfl, trivial⟩
  have hconnects : EventRuns.Throughout (fun _ e => e = Event.connect)
      (List.replicate n Event.connect) := by
    intro past e rest hsplit
    apply List.eq_of_mem_replicate (n := n)
    rw [hsplit]
    exact List.mem_append_right past List.mem_cons_self
  obtain ⟨s, hs, -⟩ := EventRuns.run_progress (fun _ _ => True) _ trivial hstep hconnects
  exact ⟨s, hs⟩

/-- Behind 2^31 connections the page shows a negative number of requests. -/
theorem requests_negative :
    ¬∀ (K : Kore) (S : Symbols) (W : Websocket) (buf : StaticBuf) (events : List Event)
      (s : Server), EventRuns.run (step W) Server.start events = some s →
      opened events < 2 ^ 32 →
      Puts K (with_counters S buf s.internal_counter) (bytes "status_get_requests")
        (decimal (opened events)) ∧
      Puts K (with_counters S buf s.internal_counter) (bytes "status_get_active_conn")
        (decimal s.internal_counter.conn_active) := by
  intro h
  have hopened : opened (List.replicate (2 ^ 31) .connect) = 2 ^ 31 := List.count_replicate_self
  obtain ⟨s, hs⟩ := run_connects ConnectionCounter.reference (2 ^ 31)
  have hlt : opened (List.replicate (2 ^ 31) .connect) < 2 ^ 32 := by
    rw [hopened]
    decide
  have hshown := (h KoreApi.reference ⟨fun _ => none, fun _ => none, fun _ => none⟩
    ConnectionCounter.reference StaticBuf.zero _ s hs hlt).1
  have hrequests := run_requests hs
  rw [Requests, Nat.mod_eq_of_lt hlt] at hrequests
  have hcall := @call_requests ⟨fun _ => none, fun _ => none, fun _ => none⟩ StaticBuf.zero
    s.internal_counter (hrequests ▸ hlt)
  rw [hrequests] at hcall
  have hsmall := (puts_counter_iff KoreApi.reference status_get_requests_named hcall).mp hshown
  rw [hopened] at hsmall
  exact absurd hsmall (by decide)

end StatusCounters
