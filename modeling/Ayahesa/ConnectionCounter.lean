import Mathlib.Algebra.Group.Nat.Defs
import Ayahesa.EventRuns

/-! # The counter of active connections

A connection is counted when it opens, and its disconnect callback takes it off the counter. The
message controller hands a connection over to Kore's websockets, whose callback is another one. -/
namespace ConnectionCounter

open EventRuns

/-- `req_count` and `conn_active` of `internal_counter`, both `unsigned int`. -/
structure Counter where
  req_count : ℕ
  conn_active : ℕ
  deriving DecidableEq, Repr

def Counter.reset : Counter := ⟨0, 0⟩

def application_prelude (internal_counter : Counter) : Counter where
  req_count := (internal_counter.req_count + 1) % 2 ^ 32
  conn_active := (internal_counter.conn_active + 1) % 2 ^ 32

def application_postproc (internal_counter : Counter) : Counter :=
  { internal_counter with conn_active := (internal_counter.conn_active + (2 ^ 32 - 1)) % 2 ^ 32 }

inductive Proto where
  | CONN_PROTO_HTTP
  | CONN_PROTO_WEBSOCKET
  deriving DecidableEq, Repr

abbrev Callback := Counter → Counter

structure Connection where
  proto : Proto
  disconnect : Option Callback

/-- Kore's side of an upgrade: its own callback calls the one for the close of the websocket. -/
structure Websocket where
  handshake : Connection → Callback → Connection
  handshake_proto : ∀ c onclose, (handshake c onclose).proto = .CONN_PROTO_WEBSOCKET
  handshake_disconnect : ∀ c onclose, ∃ callback, (handshake c onclose).disconnect = some callback ∧
    ∀ counter, callback counter = onclose counter

def aya_disconnect : Callback := application_postproc

def aya_connect (internal_counter : Counter) : Connection × Counter :=
  (⟨.CONN_PROTO_HTTP, some aya_disconnect⟩, application_prelude internal_counter)

/-- The broadcast to the other connections does not touch the counters. -/
def websocket_disconnect : Callback := fun internal_counter => internal_counter

def controller_msg (W : Websocket) (c : Connection) : Connection :=
  W.handshake c websocket_disconnect

structure Server where
  connections : List Connection
  internal_counter : Counter

def Server.start : Server := ⟨[], Counter.reset⟩

/-- A close, of whatever kind, and an upgrade name one of the open connections. -/
inductive Event where
  | connect
  | close (i : ℕ)
  | upgrade (i : ℕ)
  deriving DecidableEq, Repr

def step (W : Websocket) (s : Server) : Event → Option Server
  | .connect =>
    let (c, internal_counter) := aya_connect s.internal_counter
    some ⟨s.connections ++ [c], internal_counter⟩
  | .close i => s.connections[i]?.map fun c =>
    ⟨s.connections.eraseIdx i,
      match c.disconnect with
      | some callback => callback s.internal_counter
      | none => s.internal_counter⟩
  | .upgrade i => s.connections[i]?.map fun c =>
    { s with connections := s.connections.set i (controller_msg W c) }

/-- The counter is the number of open connections, and no close can take it below zero. -/
structure Exact (W : Websocket) (s : Server) : Prop where
  active : s.internal_counter.conn_active = s.connections.length
  close : ∀ i t, step W s (.close i) = some t →
    t.internal_counter.conn_active ≤ s.internal_counter.conn_active

/-- The event does not close an upgraded connection, and a new connection can be counted. -/
def Counted (s : Server) : Event → Prop
  | .connect => s.connections.length < 2 ^ 32 - 1
  | .close i => ∀ c, s.connections[i]? = some c → c.proto = .CONN_PROTO_HTTP
  | .upgrade _ => True

def Owned (c : Connection) : Prop :=
  ∃ callback, c.disconnect = some callback ∧
    match c.proto with
    | .CONN_PROTO_HTTP => ∀ counter, callback counter = application_postproc counter
    | .CONN_PROTO_WEBSOCKET => ∀ counter, callback counter = counter

section Step

variable {W : Websocket} {s t : Server} {i : ℕ}

theorem controller_msg_owned (W : Websocket) (c : Connection) : Owned (controller_msg W c) := by
  obtain ⟨callback, hdisconnect, hcall⟩ := W.handshake_disconnect c websocket_disconnect
  refine ⟨callback, hdisconnect, ?_⟩
  rw [controller_msg, W.handshake_proto]
  exact hcall

theorem close_inv (howned : ∀ c ∈ s.connections, Owned c) (h : step W s (.close i) = some t) :
    ∃ c, s.connections[i]? = some c ∧ t.connections.length + 1 = s.connections.length ∧
      t.internal_counter = (match c.proto with
        | .CONN_PROTO_HTTP => application_postproc s.internal_counter
        | .CONN_PROTO_WEBSOCKET => s.internal_counter) := by
  obtain ⟨c, hc, rfl⟩ := Option.map_eq_some_iff.mp h
  obtain ⟨hi, -⟩ := List.getElem?_eq_some_iff.mp hc
  obtain ⟨callback, hdisconnect, hcall⟩ := howned c (List.mem_of_getElem? hc)
  refine ⟨c, hc, ?_, ?_⟩
  · rw [List.length_eraseIdx_of_lt hi]
    omega
  · simp only [hdisconnect]
    revert hcall
    cases c.proto with
    | CONN_PROTO_HTTP => exact fun hcall => hcall _
    | CONN_PROTO_WEBSOCKET => exact fun hcall => hcall _

theorem postproc_active {n : ℕ} {counter : Counter} (h : counter.conn_active = n + 1)
    (hn : n + 1 < 2 ^ 32) : (application_postproc counter).conn_active = n := by
  simp only [application_postproc, h]
  omega

theorem step_owned {e : Event} (howned : ∀ c ∈ s.connections, Owned c)
    (h : step W s e = some t) : ∀ c ∈ t.connections, Owned c := by
  cases e with
  | connect =>
    obtain rfl := Option.some.inj h
    intro c hc
    rcases List.mem_append.mp hc with hc | hc
    · exact howned c hc
    · obtain rfl := List.mem_singleton.mp hc
      exact ⟨aya_disconnect, rfl, fun _ => rfl⟩
  | close i =>
    obtain ⟨c, -, rfl⟩ := Option.map_eq_some_iff.mp h
    exact fun c hc => howned c (List.mem_of_mem_eraseIdx hc)
  | upgrade i =>
    obtain ⟨c, -, rfl⟩ := Option.map_eq_some_iff.mp h
    intro d hd
    rcases List.mem_or_eq_of_mem_set hd with hd | rfl
    · exact howned d hd
    · exact controller_msg_owned W c

theorem step_bounded {e : Event} (howned : ∀ c ∈ s.connections, Owned c)
    (hbound : s.internal_counter.conn_active < 2 ^ 32) (h : step W s e = some t) :
    t.internal_counter.conn_active < 2 ^ 32 := by
  cases e with
  | connect =>
    obtain rfl := Option.some.inj h
    exact Nat.mod_lt _ (by decide)
  | close i =>
    obtain ⟨c, -, -, hcounter⟩ := close_inv howned h
    rw [hcounter]
    cases c.proto with
    | CONN_PROTO_HTTP => exact Nat.mod_lt _ (by decide)
    | CONN_PROTO_WEBSOCKET => exact hbound
  | upgrade i =>
    obtain ⟨c, -, rfl⟩ := Option.map_eq_some_iff.mp h
    exact hbound

/-- Where the counter is right, the next event keeps it right exactly if it is counted. -/
theorem step_active_iff {e : Event} (howned : ∀ c ∈ s.connections, Owned c)
    (hbound : s.internal_counter.conn_active < 2 ^ 32)
    (hactive : s.internal_counter.conn_active = s.connections.length) (h : step W s e = some t) :
    t.internal_counter.conn_active = t.connections.length ↔ Counted s e := by
  cases e with
  | connect =>
    obtain rfl := Option.some.inj h
    have hlen : (s.connections ++ [(⟨.CONN_PROTO_HTTP, some aya_disconnect⟩ : Connection)]).length =
        s.connections.length + 1 := List.length_append
    simp only [application_prelude, hactive, hlen, Counted]
    rw [hactive] at hbound
    omega
  | close i =>
    obtain ⟨c, hc, hlen, hcounter⟩ := close_inv howned h
    have hcounted : Counted s (.close i) ↔ c.proto = .CONN_PROTO_HTTP := by
      constructor
      · exact fun hcounted => hcounted c hc
      · intro hproto d hd
        rwa [← Option.some.inj (hc.symm.trans hd)]
    rw [hcounted, hcounter]
    rw [hactive] at hbound
    rw [← hlen] at hactive hbound
    cases c.proto with
    | CONN_PROTO_HTTP => simp only [postproc_active hactive hbound]
    | CONN_PROTO_WEBSOCKET => simp [hactive]
  | upgrade i =>
    obtain ⟨c, -, rfl⟩ := Option.map_eq_some_iff.mp h
    simp only [Counted, hactive, List.length_set]

theorem exact_iff (howned : ∀ c ∈ s.connections, Owned c)
    (hbound : s.internal_counter.conn_active < 2 ^ 32) :
    Exact W s ↔ s.internal_counter.conn_active = s.connections.length := by
  refine ⟨Exact.active, fun hactive => ⟨hactive, ?_⟩⟩
  intro i t h
  obtain ⟨c, -, hlen, hcounter⟩ := close_inv howned h
  rw [hcounter]
  cases c.proto with
  | CONN_PROTO_HTTP =>
    rw [← hlen] at hactive
    rw [postproc_active hactive (hactive ▸ hbound), hactive]
    exact Nat.le_succ _
  | CONN_PROTO_WEBSOCKET => exact Nat.le_refl _

end Step

section Run

variable {W : Websocket} {past events : List Event} {s : Server}

theorem run_owned (h : run (step W) Server.start past = some s) :
    (∀ c ∈ s.connections, Owned c) ∧ s.internal_counter.conn_active < 2 ^ 32 := by
  refine run_invariant
    (fun _ s => (∀ c ∈ s.connections, Owned c) ∧ s.internal_counter.conn_active < 2 ^ 32)
    (fun _ _ => True) ⟨fun c hc => absurd hc List.not_mem_nil, by decide⟩ ?_
    (fun _ _ _ _ => trivial) h
  rintro past e s t - ⟨howned, hbound⟩ - hstep
  exact ⟨step_owned howned hstep, step_bounded howned hbound hstep⟩

def AllCounted (W : Websocket) (events : List Event) : Prop :=
  Throughout (fun past e => ∀ s, run (step W) Server.start past = some s → Counted s e) events

theorem run_exact (hcounted : AllCounted W events)
    (h : run (step W) Server.start events = some s) : Exact W s := by
  have hactive : s.internal_counter.conn_active = s.connections.length := by
    refine run_invariant (fun _ s => s.internal_counter.conn_active = s.connections.length) _ rfl
      ?_ hcounted h
    intro past e s t hs hactive hcounted hstep
    obtain ⟨howned, hbound⟩ := run_owned hs
    exact (step_active_iff howned hbound hactive hstep).mpr (hcounted s hs)
  obtain ⟨howned, hbound⟩ := run_owned h
  exact (exact_iff howned hbound).mpr hactive

end Run

/-- The counter is exact in every state of a run if and only if no event of the run closes an
upgraded connection, and none opens a connection that the counter has no number for. -/
theorem connections_exact_iff (W : Websocket) (events : List Event) :
    (∀ past rest s, events = past ++ rest → run (step W) Server.start past = some s →
      Exact W s) ↔ AllCounted W events := by
  constructor
  · intro hexact past e rest hsplit s hs
    have hhere := hexact past (e :: rest) s hsplit hs
    obtain ⟨howned, hbound⟩ := run_owned hs
    cases hstep : step W s e with
    | some t =>
      have hnext := hexact (past ++ [e]) rest t (by simp [hsplit]) (run_step hs hstep)
      exact (step_active_iff howned hbound hhere.active hstep).mp hnext.active
    | none =>
      -- an event that cannot happen breaks nothing
      cases e with
      | connect => cases hstep
      | close i =>
        intro c hc
        simp [step, hc] at hstep
      | upgrade i => trivial
  · intro hcounted past rest s hsplit hs
    subst hsplit
    exact run_exact hcounted.of_append hs

def reference : Websocket where
  handshake _ onclose := ⟨.CONN_PROTO_WEBSOCKET, some onclose⟩
  handshake_proto _ _ := rfl
  handshake_disconnect _ onclose := ⟨onclose, rfl, fun _ => rfl⟩

/-- A websocket that was closed is still counted. -/
theorem websocket_still_counted :
    ¬ ∀ (W : Websocket) (events : List Event) (s : Server),
      run (step W) Server.start events = some s → Exact W s := by
  intro h
  have hexact := h reference [.connect, .upgrade 0, .close 0] ⟨[], ⟨1, 1⟩⟩ rfl
  exact absurd hexact.active (by decide)

end ConnectionCounter
