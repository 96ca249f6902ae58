import Ayahesa.CompatCopy
import Ayahesa.HttpRequest
import Ayahesa.IntegerFormatting
import Ayahesa.KoreBuffer
import Ayahesa.SimultaneousReplace

/-! # Predefined variables

Fifteen placeholders are replaced one after the other. A value is seen by every later call, so
the chain does what one pass over the buffer does only as long as no later placeholder is met in a
value or across its edges. -/
namespace ViewPredefined

open CMemory CompatCopy ByteSearch IntegerFormatting KoreApi KoreBuffer HttpRequest
open SimultaneousReplace

def AYA_VERSION : Bytes := bytes "0.6.4"

/-- A string that goes to `strlen`. -/
def text : Option Bytes → C Bytes
  | none => .error .nullPointer
  | some s => .ok (c_string s)

/-- What is in an array of `len` bytes behind the call of `aya_strlcpy`. -/
def copied (src : Option Bytes) (len : ℕ) : C Bytes := do
  let src ← text src
  let (dst, _) ← aya_strlcpy (aya_malloc len) src len
  contents dst

/-- The bytes that a caller copies from a string it takes to be long enough. -/
def first_bytes (s : Bytes) (n : ℕ) : C Bytes :=
  if n ≤ s.length + 1 then .ok ((s ++ [0]).take n) else .error .outOfBounds

/-- What the application, the clock and the request answer; `none` is NULL. -/
structure Surroundings where
  date_year : ℤ
  app_instance : Option Bytes
  time_date : Option Bytes
  app_name : Option Bytes
  app_uptime : Option Bytes
  app_environment : Option Bytes
  app_domainname : Option Bytes
  hdlr_extra : Option RequestData
  path : Option Bytes
  query_string : Option Bytes
  host : Option Bytes
  agent : Option Bytes
  http_remote_addr : Option Bytes
  http_method_text : Option Bytes

section Buffers

variable {β : Type} [Buffer β]

/-- The capacity of the new buffer is Kore's; nothing reads it. -/
def kore_buf_replace_string (K : Kore) (b : β) (src dst : Bytes) : β :=
  Buffer.buf_of b (K.buf_replace_string (Buffer.used b) src dst)

def process_predef_vars (K : Kore) (V : Surroundings) (buffer : β) : C β := do
  let auth_user := c_string ((http_auth_principal V.hdlr_extra).getD [])
  let year ← itoa_string StaticBuf.zero V.date_year
  let domainname ← copied V.app_domainname 128
  let methodname ← copied V.http_method_text 8
  let year ← first_bytes year 4
  let buffer := kore_buf_replace_string K buffer (bytes "@year") year
  let buffer := kore_buf_replace_string K buffer (bytes "@framework") AYA_VERSION
  let app_instance ← text V.app_instance
  let buffer := kore_buf_replace_string K buffer (bytes "@instance") app_instance
  let date ← text V.time_date
  let buffer := kore_buf_replace_string K buffer (bytes "@date") date
  let appname ← text V.app_name
  let buffer := kore_buf_replace_string K buffer (bytes "@name") appname
  let buffer := kore_buf_replace_string K buffer (bytes "@user") auth_user
  let uptime ← text V.app_uptime
  let buffer := kore_buf_replace_string K buffer (bytes "@uptime") uptime
  let env ← text V.app_environment
  let buffer := kore_buf_replace_string K buffer (bytes "@env") env
  let buffer := kore_buf_replace_string K buffer (bytes "@domain") domainname
  let buffer := kore_buf_replace_string K buffer (bytes "@method") methodname
  let uri ← text V.path
  let buffer := kore_buf_replace_string K buffer (bytes "@uri") uri
  let query_string ← text (some (V.query_string.getD (bytes "-")))
  let buffer := kore_buf_replace_string K buffer (bytes "@query_string") query_string
  let host ← text V.host
  let buffer := kore_buf_replace_string K buffer (bytes "@host") host
  let agent ← text V.agent
  let buffer := kore_buf_replace_string K buffer (bytes "@agent") agent
  let remote_addr ← text V.http_remote_addr
  return kore_buf_replace_string K buffer (bytes "@remote_addr") remote_addr

end Buffers

/-- Placeholders and values, in the order of the calls. -/
structure Values where
  year : Bytes
  app_instance : Bytes
  date : Bytes
  name : Bytes
  user : Bytes
  uptime : Bytes
  env : Bytes
  domain : Bytes
  method : Bytes
  uri : Bytes
  query_string : Bytes
  host : Bytes
  agent : Bytes
  remote_addr : Bytes
  deriving DecidableEq, Repr

def Values.table (v : Values) : List (Entry UInt8) :=
  [⟨bytes "@year", v.year⟩, ⟨bytes "@framework", AYA_VERSION⟩, ⟨bytes "@instance", v.app_instance⟩,
    ⟨bytes "@date", v.date⟩, ⟨bytes "@name", v.name⟩, ⟨bytes "@user", v.user⟩,
    ⟨bytes "@uptime", v.uptime⟩, ⟨bytes "@env", v.env⟩, ⟨bytes "@domain", v.domain⟩,
    ⟨bytes "@method", v.method⟩, ⟨bytes "@uri", v.uri⟩, ⟨bytes "@query_string", v.query_string⟩,
    ⟨bytes "@host", v.host⟩, ⟨bytes "@agent", v.agent⟩, ⟨bytes "@remote_addr", v.remote_addr⟩]

/-- The values of one request, if the code can read them all. -/
def values (V : Surroundings) : C Values := do
  let year ← first_bytes (← itoa_string StaticBuf.zero V.date_year) 4
  return {
    year := year
    domain := ← copied V.app_domainname 128
    method := ← copied V.http_method_text 8
    app_instance := ← text V.app_instance
    date := ← text V.time_date
    name := ← text V.app_name
    user := c_string ((http_auth_principal V.hdlr_extra).getD [])
    uptime := ← text V.app_uptime
    env := ← text V.app_environment
    uri := ← text V.path
    query_string := c_string (V.query_string.getD (bytes "-"))
    host := ← text V.host
    agent := ← text V.agent
    remote_addr := ← text V.http_remote_addr }

theorem table_separable (v : Values) : Separable 64 v.table where
  head := by
    intro e he
    simp only [Values.table, List.mem_cons, List.not_mem_nil, or_false] at he
    rcases he with rfl | rfl | rfl | rfl | rfl | rfl | rfl | rfl | rfl | rfl | rfl | rfl | rfl |
      rfl | rfl <;> exact ⟨_, rfl, by decide⟩
  apart := by
    have hwords : (v.table.map Entry.word).Pairwise fun a b => ¬ a <+: b ∧ ¬ b <+: a := by
      change List.Pairwise _ [bytes "@year", bytes "@framework", bytes "@instance", bytes "@date",
        bytes "@name", bytes "@user", bytes "@uptime", bytes "@env", bytes "@domain",
        bytes "@method", bytes "@uri", bytes "@query_string", bytes "@host", bytes "@agent",
        bytes "@remote_addr"]
      decide
    exact List.pairwise_map.mp hwords

theorem copied_some (src : Bytes) {len : ℕ} (hpos : 0 < len) :
    copied (some src) len = .ok ((c_string src).take (len - 1)) := by
  have hclean : 0 ∉ (c_string src).take (len - 1) := fun h0 =>
    c_string_clean src (List.mem_of_mem_take h0)
  have hcopy := aya_strlcpy_eq (aya_malloc len) (c_string src) hpos (aya_malloc_length len).ge
  simp only [copied, text, hcopy, contents_terminated hclean, bind, Except.bind]

theorem kore_buf_replace_string_eq (K : Kore) (b : KoreBuf) (dst : Bytes) {src : Bytes}
    (hne : src ≠ []) :
    kore_buf_replace_string K b src dst = kore_buf_of (expand [⟨src, dst⟩] b.data) := by
  have hrun : kore_buf_replace_string K b src dst =
    kore_buf_of (K.buf_replace_string b.data src dst) := rfl
  rw [hrun, K.buf_replace_string_eq b.data dst hne]

/-- The calls are a chain of replacements. -/
theorem process_predef_vars_chain (K : Kore) {V : Surroundings} {v : Values} (b : KoreBuf)
    (h : values V = .ok v) :
    process_predef_vars K V b = .ok (kore_buf_of (chain v.table b.data)) := by
  obtain ⟨y, hy, h⟩ := bind_ok h
  obtain ⟨year, hyear, h⟩ := bind_ok h
  obtain ⟨domain, hdomain, h⟩ := bind_ok h
  obtain ⟨method, hmethod, h⟩ := bind_ok h
  obtain ⟨app, happ, h⟩ := bind_ok h
  obtain ⟨date, hdate, h⟩ := bind_ok h
  obtain ⟨name, hname, h⟩ := bind_ok h
  obtain ⟨uptime, huptime, h⟩ := bind_ok h
  obtain ⟨env, henv, h⟩ := bind_ok h
  obtain ⟨uri, huri, h⟩ := bind_ok h
  obtain ⟨host, hhost, h⟩ := bind_ok h
  obtain ⟨agent, hagent, h⟩ := bind_ok h
  obtain ⟨remote, hremote, h⟩ := bind_ok h
  obtain rfl := Except.ok.inj h
  have hquery : text (some (V.query_string.getD (bytes "-"))) =
      .ok (c_string (V.query_string.getD (bytes "-"))) := rfl
  simp only [process_predef_vars, hy, hyear, hdomain, hmethod, happ, hdate, hname, huptime, henv,
    huri, hquery, hhost, hagent, hremote, bind, Except.bind, pure, Except.pure, Values.table, chain,
    List.foldl]
  simp (disch := decide) only [kore_buf_replace_string_eq, kore_buf_of_data]

/-- The chain of replacements yields what one pass over the buffer yields, as long as no call
meets its placeholder in a value that an earlier call has put in, or across an edge of it. -/
theorem predef_vars_simultaneous (K : Kore) (V : Surroundings) (v : Values) (b : KoreBuf)
    (hv : values V = .ok v) (h : Undisturbed v.table b.data) :
    process_predef_vars K V b = .ok (kore_buf_of (expand v.table b.data)) := by
  rw [process_predef_vars_chain K b hv, chain_eq_expand (table_separable v) h]

def request (path : Bytes) : Surroundings where
  date_year := 2017
  app_instance := some (bytes "alpha")
  time_date := some (bytes "Sat")
  app_name := some (bytes "shop")
  app_uptime := some (bytes "3 days")
  app_environment := some (bytes "live")
  app_domainname := some (bytes "alpha.org")
  hdlr_extra := none
  path := some path
  query_string := none
  host := some (bytes "org")
  agent := some (bytes "curl")
  http_remote_addr := some (bytes "::1")
  http_method_text := some (bytes "GET")

def requestValues (path : Bytes) : Values where
  year := bytes "2017"
  app_instance := bytes "alpha"
  date := bytes "Sat"
  name := bytes "shop"
  user := []
  uptime := bytes "3 days"
  env := bytes "live"
  domain := bytes "alpha.org"
  method := bytes "GET"
  uri := path
  query_string := bytes "-"
  host := bytes "org"
  agent := bytes "curl"
  remote_addr := bytes "::1"

theorem predef_vars_simultaneous_request :
    process_predef_vars reference (request (bytes "/cart")) (kore_buf_of (bytes "@uri at @host")) =
      .ok (kore_buf_of (expand (requestValues (bytes "/cart")).table (bytes "@uri at @host"))) := by
  have hu : Unmarked 64 (requestValues (bytes "/cart")).table (bytes "@uri at @host") :=
    unmarked_of_front (table_separable _) (by decide +kernel) (by decide +kernel)
  exact predef_vars_simultaneous reference (request (bytes "/cart"))
    (requestValues (bytes "/cart")) (kore_buf_of (bytes "@uri at @host")) (by decide +kernel)
    (undisturbed_of_unmarked (table_separable _) hu)

/-- A path that looks like a placeholder is expanded by a later call. -/
theorem path_expanded_again :
    ¬ ∀ (K : Kore) (V : Surroundings) (v : Values) (b : KoreBuf), values V = .ok v →
      process_predef_vars K V b = .ok (kore_buf_of (expand v.table b.data)) := by
  intro hall
  have h := hall reference (request (bytes "/@host")) (requestValues (bytes "/@host"))
    (kore_buf_of (bytes "@uri")) (by decide +kernel)
  have hdata := congrArg (fun r => r.toOption.map KoreBuf.data) h
  exact absurd hdata (by decide +kernel)

end ViewPredefined
