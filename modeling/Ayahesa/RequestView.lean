import Ayahesa.AppStart
import Ayahesa.HttpView

/-! # A view for a request

The predefined variables come from the application, the clock and the request. Each source has
its own way of saying that it has no string; here they are put together as the code does. -/
namespace RequestView

open CMemory CompatCopy DecimalText KoreApi KoreBuffer HttpRequest LoopIteration AppConfig AppStart
open IntegerFormatting ViewPasses HttpView
open ViewPredefined hiding text

/-! ## The clock -/

/-- `tm_year` counts from 1900, `diff_tm` is an `int` of seconds. The date is what
`kore_time_to_date` makes of a time that has a date. -/
structure Clock where
  tm_year : ℤ
  date : Bytes
  diff_tm : ℤ
  since_epoch : 69 ≤ tm_year ∧ tm_year < 2 ^ 31 - 1900
  running : -2 ^ 31 ≤ diff_tm ∧ diff_tm < 2 ^ 31

def date_year (clock : Clock) : ℤ := clock.tm_year + 1900

/-- A number under `%02d`. -/
def two_digits (i : ℤ) : Bytes := List.replicate (2 - (decimal i).length) 48 ++ decimal i

/-- The text that goes through `sprintf`; division rounds to zero. -/
def uptime_text (diff_tm : ℤ) : Bytes :=
  let days := diff_tm.tdiv 86400
  let hours := (diff_tm.tmod 86400).tdiv 3600
  let minutes := (diff_tm.tmod 3600).tdiv 60
  let seconds := (diff_tm.tmod 3600).tmod 60
  decimal days ++ bytes " days, " ++ two_digits hours ++ bytes ":" ++ two_digits minutes ++
    bytes ":" ++ two_digits seconds ++ bytes "\n"

/-- Nothing reads what an earlier call has left behind the NUL. -/
def app_uptime (clock : Clock) : C Bytes := do
  let uptime ← sprintf (calloc 32) (uptime_text clock.diff_tm)
  cstr uptime 0

theorem two_digits_clean (i : ℤ) : 0 ∉ two_digits i := by
  simp [two_digits, decimal_clean]

theorem two_digits_length {i : ℤ} (hi : i.natAbs < 100) : (two_digits i).length ≤ 3 := by
  have hlen : (decimal i).length ≤ 2 + 1 := decimal_length (by decide) hi
  rw [two_digits, List.length_append, List.length_replicate]
  omega

theorem uptime_text_clean (diff_tm : ℤ) : 0 ∉ uptime_text diff_tm := by
  have hdays : 0 ∉ bytes " days, " := by decide
  have hcolon : 0 ∉ bytes ":" := by decide
  have hend : 0 ∉ bytes "\n" := by decide
  simp [uptime_text, decimal_clean, two_digits_clean, hdays, hcolon, hend]

theorem uptime_text_length {diff_tm : ℤ} (h : -2 ^ 31 ≤ diff_tm ∧ diff_tm < 2 ^ 31) :
    (uptime_text diff_tm).length < 32 := by
  have habs : diff_tm.natAbs ≤ 2 ^ 31 := by omega
  have hdays : (decimal (diff_tm.tdiv 86400)).length ≤ 5 + 1 := by
    apply decimal_length (by decide)
    rw [Int.natAbs_tdiv]
    change diff_tm.natAbs / 86400 < 10 ^ 5
    omega
  have hhours : (two_digits ((diff_tm.tmod 86400).tdiv 3600)).length ≤ 3 := by
    apply two_digits_length
    rw [Int.natAbs_tdiv, Int.natAbs_tmod]
    change diff_tm.natAbs % 86400 / 3600 < 100
    omega
  have hminutes : (two_digits ((diff_tm.tmod 3600).tdiv 60)).length ≤ 3 := by
    apply two_digits_length
    rw [Int.natAbs_tdiv, Int.natAbs_tmod]
    change diff_tm.natAbs % 3600 / 60 < 100
    omega
  have hseconds : (two_digits ((diff_tm.tmod 3600).tmod 60)).length ≤ 3 := by
    apply two_digits_length
    rw [Int.natAbs_tmod, Int.natAbs_tmod]
    change diff_tm.natAbs % 3600 % 60 < 100
    omega
  have hwords : (bytes " days, ").length = 7 ∧ (bytes ":").length = 1 ∧
      (bytes "\n").length = 1 := by decide
  simp only [uptime_text, List.length_append, hwords.1, hwords.2.1, hwords.2.2]
  omega

theorem app_uptime_eq (clock : Clock) : app_uptime clock = .ok (uptime_text clock.diff_tm) := by
  have hroom : (uptime_text clock.diff_tm ++ [0]).length ≤ (calloc 32).length := by
    have hlen := uptime_text_length clock.running
    simp only [List.length_append, List.length_singleton, calloc, List.length_replicate]
    omega
  have hread := cstr_start ((calloc 32).drop (uptime_text clock.diff_tm ++ [0]).length)
    (uptime_text_clean clock.diff_tm)
  simp only [app_uptime, sprintf, fill_of_le hroom, bind, Except.bind, List.append_assoc,
    List.singleton_append]
  exact hread

/-- The clock is behind the year 1000, so the year has the four bytes that are copied. -/
theorem year_text (clock : Clock) :
    ∃ year, itoa_string StaticBuf.zero (date_year clock) = .ok year ∧
      ∃ four, first_bytes year 4 = .ok four := by
  obtain ⟨hlow, hhigh⟩ := clock.since_epoch
  have hyear : 1969 ≤ date_year clock ∧ date_year clock < 2 ^ 31 := by
    unfold date_year
    omega
  refine ⟨decimal (date_year clock), itoa_string_eq _ (by omega), _, if_pos ?_⟩
  rw [decimal, if_neg (by omega)]
  by_contra hshort
  have hlen : (digits (date_year clock).natAbs).length ≤ 3 := by omega
  have hsmall := (digits_length_iff (by decide)).mp hlen
  omega

/-! ## The request -/

/-- `addrtype` with the address that goes to `inet_ntop`. -/
inductive Address where
  | AF_INET (sin_addr : Bytes)
  | AF_INET6 (sin6_addr : Bytes)
  | other (addrtype : ℤ)
  deriving DecidableEq, Repr

/-- `header` is what `http_request_header` finds. Kore sets path and host; `agent` and
`query_string` are NULL when the client has sent none. -/
structure Request where
  path : Bytes
  host : Bytes
  agent : Option Bytes
  query_string : Option Bytes
  method_text : Bytes
  header : Bytes → Option Bytes
  owner : Address
  hdlr_extra : Option RequestData

structure Inet where
  inet_ntop : Bytes → Bytes
  inet_ntop6 : Bytes → Bytes

def http_remote_addr (I : Inet) (request : Request) : Option Bytes :=
  match request.header (bytes "x-forwarded-for") with
  | some real_ip => some real_ip
  | none =>
    match request.header (bytes "x-real-ip") with
    | some real_ip => some real_ip
    | none =>
      match request.owner with
      | .AF_INET sin_addr => some (I.inet_ntop sin_addr)
      | .AF_INET6 sin6_addr => some (I.inet_ntop6 sin6_addr)
      | .other _ => none

/-- One of the proxy headers is there, or the type of the address is known. -/
def Request.Located (request : Request) : Prop :=
  request.header (bytes "x-forwarded-for") ≠ none ∨ request.header (bytes "x-real-ip") ≠ none ∨
    ∀ addrtype, request.owner ≠ .other addrtype

theorem http_remote_addr_none_iff (I : Inet) (request : Request) :
    http_remote_addr I request = none ↔ ¬request.Located := by
  unfold http_remote_addr Request.Located
  cases request.header (bytes "x-forwarded-for") with
  | some ip => simp
  | none =>
    cases request.header (bytes "x-real-ip") with
    | some ip => simp
    | none =>
      cases request.owner with
      | AF_INET a => simp
      | AF_INET6 a => simp
      | other t => simp

/-! ## The variables of a request -/

structure Server where
  copy : KoreCopy
  inet : Inet
  clock : Clock
  app : App
  /-- The static buffer of `app_domainname`. -/
  domainname : Block

def surroundings (V : Server) (request : Request) : C Surroundings := do
  let uptime ← app_uptime V.clock
  return {
    date_year := date_year V.clock
    app_instance := some (app_instance V.app)
    time_date := some V.clock.date
    app_name := ← app_name V.app
    app_uptime := some uptime
    app_environment := ← app_environment V.app
    app_domainname := ← app_domainname V.copy V.app V.domainname
    hdlr_extra := request.hdlr_extra
    path := some request.path
    query_string := request.query_string
    host := some request.host
    agent := request.agent
    http_remote_addr := http_remote_addr V.inet request
    http_method_text := some request.method_text }

theorem surroundings_request {V : Server} {request : Request} {vars : Surroundings}
    (h : surroundings V request = .ok vars) :
    vars.hdlr_extra = request.hdlr_extra ∧ vars.agent = request.agent ∧
      vars.http_remote_addr = http_remote_addr V.inet request := by
  obtain ⟨_, -, h⟩ := bind_ok h
  obtain ⟨_, -, h⟩ := bind_ok h
  obtain ⟨_, -, h⟩ := bind_ok h
  obtain ⟨_, -, h⟩ := bind_ok h
  obtain rfl := Except.ok.inj h
  exact ⟨rfl, rfl, rfl⟩

section Passes

variable {β : Type} [Buffer β]

def request_predef_vars (K : Kore) (V : Server) (request : Request) (buffer : β) : C β := do
  let vars ← surroundings V request
  process_predef_vars K vars buffer

/-! ## The passes -/

def directive_passes (K : Kore) (S : Symbols) (hdlr_extra : Option RequestData) (n : ℕ)
    (buffer : β) : Option (C β) :=
  andThen (view_passes K S n buffer) fun buffer =>
  andThen (run (process_function_body K S) n buffer) fun buffer =>
  andThen (run (process_statement_body K S) n buffer) fun buffer =>
  process_user_vars K hdlr_extra n buffer

/-- `http_view` on the buffer that `alloc` makes for the base view. The variables are read where
they are put in. -/
def request_view (alloc : Bytes → β) (K : Kore) (S : Symbols) (V : Server) (request : Request)
    (n : ℕ) (code : ℤ) (view : Bytes) : Option (C Reply) :=
  match include_asset S view with
  | none => some (.ok ⟨500, bytes "text/plain", bytes "View Not Found"⟩)
  | some baseview =>
    let buffer := alloc baseview
    match kore_mem_find K (Buffer.region buffer) 0 (Buffer.offset buffer) (bytes "@") with
    | .error e => some (.error e)
    | .ok none => some (.ok ⟨code, bytes "text/html", Buffer.used buffer⟩)
    | .ok (some _) =>
      andThen (directive_passes K S request.hdlr_extra n buffer) fun buffer =>
      andThen (some (request_predef_vars K V request buffer)) fun buffer =>
      some (.ok ⟨code, bytes "text/html", Buffer.used buffer⟩)

end Passes

end RequestView
