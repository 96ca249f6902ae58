import Ayahesa.AppConfig
import Ayahesa.CompatStrings
import Ayahesa.LineReader

/-! # The INI parser

A line is worked on in place in its buffer. The state that is carried from line to line is
the section, the name of the previous pair and the first error, at which the parser stops. -/
namespace IniParser

open CMemory CompatStrings CompatCopy AppConfig

def INI_MAX_LINE : ℕ := 200

def MAX_SECTION : ℕ := 50

def MAX_NAME : ℕ := 50

/-- The loop of `find_chars_or_comment` from a character on; `chars` may be NULL. -/
def chars_loop (chars : Option Bytes) : Bool → Bytes → C ℕ
  | _, [] => .error .outOfBounds
  | was_space, c :: rest =>
    if c ≠ 0 ∧ ¬(chars.any (c ∈ ·)) ∧ ¬(was_space ∧ c = 59) then
      (chars_loop chars (isspace c) rest).map (· + 1)
    else .ok 0

def find_chars_or_comment (d : Bytes) (s : ℕ) (chars : Option Bytes) : C ℕ :=
  (chars_loop chars false (d.drop s)).map (s + ·)

/-- What a character array of a size holds after `aya_strncpy0`, which writes all of it. -/
def strncpy0_field (src : Bytes) (size : ℕ) : C Bytes := do
  let dst ← aya_strncpy0 (aya_malloc size) src size
  contents dst

structure IniState where
  sect : Bytes
  prev_name : Bytes
  deriving DecidableEq, Repr

/-- The three reads of the test stop at the first difference. -/
def byte_order_mark (line : Bytes) : C Bool := do
  if (← load line 0) = 0xEF then
    if (← load line 1) = 0xBB then return (← load line 2) = 0xBF
    else return false
  else return false

variable {σ : Type} (handler : Loader σ)

/-- `HANDLER` and the test of its result: the error is the line number. -/
def handle (user : σ) (sect name value : Bytes) (lineno : ℕ) : Proc (σ × ℕ) :=
  (handler user sect name value lineno).map fun (user, result) =>
    (user, if result = 0 then lineno else 0)

def ini_pair (st : IniState) (user : σ) (lineno : ℕ) (line : Bytes) (start last : ℕ) :
    Proc (IniState × σ × ℕ) := do
  let line ← lift (store line last 0)
  let line ← lift (rstrip line start)
  let value := last + 1
  let last ← lift (find_chars_or_comment line value none)
  let line ← lift (if (line)[last]? ≠ some 0 then store line last 0 else .ok line)
  let value ← lift (lskip line value)
  let line ← lift (rstrip line value)
  let name ← lift (cstr line start)
  let value ← lift (cstr line value)
  let prev_name ← lift (strncpy0_field name MAX_NAME)
  let (user, error) ← handle handler user st.sect name value lineno
  return ({ st with prev_name := prev_name }, user, error)

def ini_branch (st : IniState) (user : σ) (lineno : ℕ) (line : Bytes) (start : ℕ) :
    Proc (IniState × σ × ℕ) := do
  let c ← lift (load line start)
  if c = 59 ∨ c = 35 then return (st, user, 0)
  else if st.prev_name ≠ [] ∧ c ≠ 0 ∧ start > 0 then
    let value ← lift (cstr line start)
    let (user, error) ← handle handler user st.sect st.prev_name value lineno
    return (st, user, error)
  else if c = 91 then
    let last ← lift (find_chars_or_comment line (start + 1) (some (bytes "]")))
    if (line)[last]? = some 93 then
      let line ← lift (store line last 0)
      let name ← lift (cstr line (start + 1))
      let sect ← lift (strncpy0_field name MAX_SECTION)
      return (⟨sect, []⟩, user, 0)
    else return (st, user, lineno)
  else if c ≠ 0 then
    let last ← lift (find_chars_or_comment line start (some (bytes "=:")))
    if (line)[last]? = some 61 ∨ (line)[last]? = some 58 then
      ini_pair handler st user lineno line start last
    else return (st, user, lineno)
  else return (st, user, 0)

/-- One pass of the loop; the number is the value of `error` behind it. -/
def ini_line (st : IniState) (user : σ) (lineno : ℕ) (line : Bytes) :
    Proc (IniState × σ × ℕ) := do
  let marked ← lift (if lineno = 1 then byte_order_mark line else .ok false)
  let start := if marked then 3 else 0
  let line ← lift (rstrip line start)
  let start ← lift (lskip line start)
  ini_branch handler st user lineno line start

/-- The loop over the lines that the reader gives until its NULL. -/
def ini_lines (st : IniState) (user : σ) (lineno : ℕ) : List Bytes → Proc (σ × ℕ)
  | [] => .ok (user, 0)
  | line :: rest => do
    let (st, user, error) ← ini_line handler st user (lineno + 1) line
    if error ≠ 0 then return (user, error)
    else ini_lines st user (lineno + 1) rest

/-- A reader leaves its line and a NUL in the buffer. -/
def ini_parse_stream (user : σ) (read : List Bytes) : Proc (σ × ℕ) :=
  ini_lines handler ⟨[], []⟩ user 0 (read.map (· ++ [0]))

/-- `fgets` reads one byte less than the buffer has. -/
def fgets_lines (file : Bytes) : List Bytes := LineReader.lines 10 (INI_MAX_LINE - 1) file

def ini_parse_file (user : σ) (file : Bytes) : Proc (σ × ℕ) :=
  ini_parse_stream handler user (fgets_lines file)

def ini_parse (user : σ) (file : Option Bytes) : Proc (σ × ℤ) :=
  match file with
  | none => .ok (user, -1)
  | some file => (ini_parse_file handler user file).map fun (user, error) => (user, error)

end IniParser
