import Ayahesa.CompatStrings
import Ayahesa.HttpRequest
import Ayahesa.KoreBuffer
import Ayahesa.LoopIteration

/-! # The template passes of `view.c`

Each pass searches the buffer for its token, rewrites it and, but for the template pass,
searches again from the start. A body is one round of the `for (;;)` of its pass. -/
namespace ViewPasses

open CMemory CompatStrings KoreApi KoreBuffer HttpRequest LoopIteration

def TOk_INCLUDE : Bytes := bytes "@include("
def TOk_FUNCTION : Bytes := bytes "@function("
def TOk_USER_VAR : Bytes := bytes "@var("
def TOk_TEMPLATE : Bytes := bytes "@template("
def TOk_ENDTEMPLATE : Bytes := bytes "@endtemplate"
def TOk_IF : Bytes := bytes "@if("
def TOk_ELSE : Bytes := bytes "@else"
def TOk_ENDIF : Bytes := bytes "@endif"
def TOk_CLOSE : UInt8 := 41
def TOk_COMMENT_OPEN : Bytes := bytes "@/*"
def TOk_COMMENT_CLOSE : Bytes := bytes "*/@"
def yield_mark : Bytes := bytes "@yield"
def comma : UInt8 := 44

/-- What `dlsym` finds in the program: the texts of assets, the view functions and the `int`
globals. -/
structure Symbols where
  data : Bytes → Option Bytes
  vfunc : Bytes → Option (List Bytes → Option Bytes)
  vvar : Bytes → Option ℤ

def include_asset (S : Symbols) (name : Bytes) : Option Bytes :=
  (S.data ((bytes "asset_" ++ name ++ bytes "_html").take 63)).map c_string

def call_vfunc (S : Symbols) (argv : List Bytes) : Option Bytes :=
  match S.vfunc (argv.headD []) with
  | none => none
  | some vfunc => (vfunc argv).map c_string

def get_vvar (S : Symbols) (var : Bytes) : ℤ := (S.vvar var).getD (-1)

/-- What `parser` returns through its result and its output parameters. -/
structure Match where
  argument : ℕ
  argumentsz : ℤ
  posx_start : ℕ
  posx_length : ℤ
  deriving DecidableEq, Repr

variable {β : Type} [Buffer β]

def parser (K : Kore) (buffer : β) (token : Bytes) : C (Option Match) := do
  match ← kore_mem_find K (Buffer.region buffer) 0 (Buffer.offset buffer) token with
  | none => return none
  | some start =>
    match ← strchr (Buffer.region buffer) start TOk_CLOSE with
    | none => return none
    | some pos_end =>
      let pos_start := start + token.length
      let argumentsz : ℤ := pos_end - pos_start
      return some ⟨pos_start, argumentsz, start, (pos_start + argumentsz) - start⟩

/-- `argument[argumentsz] = '\0'; argument = trim(argument)`, as every pass does it. -/
def closed_argument (buffer : β) (m : Match) : C (β × ℕ) := do
  let data ← store (Buffer.region buffer) (m.argument + m.argumentsz).toNat 0
  let (data, argument) ← trim data m.argument
  return (Buffer.written buffer data, argument)

/-- The loop of `split_arguments`; it skips the byte behind every comma. -/
def split_arguments_loop (cmdline cmdlinesz : ℕ) :
    ℕ → Bytes → ℕ → ℕ → List ℕ → C (Bytes × ℕ × List ℕ)
  | 0, d, _, next, argv => .ok (d, next, argv)
  | n + 1, d, i, next, argv =>
    if i < cmdlinesz ∧ argv.length < 16 then do
      let c ← load d (cmdline + i)
      if c = comma then do
        let d ← store d (cmdline + i) 0
        let (d, a) ← trim d next
        split_arguments_loop cmdline cmdlinesz n d (i + 2) (cmdline + i + 1) (argv ++ [a])
      else split_arguments_loop cmdline cmdlinesz n d (i + 1) next argv
    else .ok (d, next, argv)

/-- The pointers in `argv`; it has 16 slots. -/
def split_arguments (d : Bytes) (cmdline cmdlinesz : ℕ) : C (Bytes × List ℕ) := do
  match ← strchr d cmdline comma with
  | none => return (d, [cmdline])
  | some _ => do
    let (d, next, argv) ← split_arguments_loop cmdline cmdlinesz cmdlinesz d 0 cmdline []
    let (d, a) ← trim d next
    if argv.length < 16 then return (d, argv ++ [a]) else .error .outOfBounds

/-- One round of a pass that puts a text in place of a directive. `text` sees the buffer with
the closed argument; without a text the pass returns. -/
def substitute (K : Kore) (token : Bytes) (text : Bytes → ℕ → ℕ → C (Bytes × Option Bytes))
    (buffer : β) : C (Step β) := do
  match ← parser K buffer token with
  | none => return .done buffer
  | some m =>
    if m.argumentsz = 0 then return .done buffer
    else do
      let (buffer, argument) ← closed_argument buffer m
      let (data, str) ← text (Buffer.region buffer) argument m.argumentsz.toNat
      let buffer := Buffer.written buffer data
      match str with
      | none => return .done buffer
      | some str =>
        let buffer ← Buffer.replace_string buffer m.posx_start m.posx_length str
        return .next buffer

def named_text (lookup : Bytes → Option Bytes) (d : Bytes) (argument _argumentsz : ℕ) :
    C (Bytes × Option Bytes) := do
  let name ← cstr d argument
  return (d, lookup name)

def process_include_body (K : Kore) (S : Symbols) : β → C (Step β) :=
  substitute K TOk_INCLUDE (named_text (include_asset S))

/-- A view function that is missing or returns NULL goes to `strlen`. -/
def function_text (S : Symbols) (d : Bytes) (argument argumentsz : ℕ) :
    C (Bytes × Option Bytes) := do
  let (d, argv) ← split_arguments d argument argumentsz
  if argv = [] then return (d, none)
  else do
    let args ← argv.mapM (cstr d)
    match call_vfunc S args with
    | none => .error .nullPointer
    | some str => return (d, some str)

def process_function_body (K : Kore) (S : Symbols) : β → C (Step β) :=
  substitute K TOk_FUNCTION (function_text S)

/-- A name without a value stands for the empty text. -/
def session_value (session : AppTree) (name : Bytes) : Bytes :=
  c_string ((tree_get_str session name none).getD [])

def process_user_vars_body (K : Kore) (session : AppTree) : β → C (Step β) :=
  substitute K TOk_USER_VAR (named_text fun name => some (session_value session name))

/-- Two marks, both searched from the start of the buffer. -/
def find_marks (K : Kore) (buffer : β) (first second : Bytes) : C (Option (ℕ × ℕ)) := do
  match ← kore_mem_find K (Buffer.region buffer) 0 (Buffer.offset buffer) first with
  | none => return none
  | some start =>
    match ← kore_mem_find K (Buffer.region buffer) 0 (Buffer.offset buffer) second with
    | none => return none
    | some stop => return some (start, stop)

/-- `begin` and `end` of a comment. -/
def comment_marks (K : Kore) (buffer : β) : C (Option (ℕ × ℕ)) :=
  find_marks K buffer TOk_COMMENT_OPEN TOk_COMMENT_CLOSE

def process_comment_body (K : Kore) (buffer : β) : C (Step β) := do
  match ← comment_marks K buffer with
  | none => return .done buffer
  | some (start, stop) =>
    let buffer ← Buffer.replace_string buffer start
      (((stop : ℤ) - start) + TOk_COMMENT_CLOSE.length) []
    return .next buffer

/-- What `process_statement` knows before it evaluates the condition. -/
structure Statement (β : Type) where
  buffer : β
  argument : ℕ
  pos_start : ℕ
  pos_length : ℤ
  stop : ℕ
  middle : Option ℕ
  deriving DecidableEq, Repr

/-- The first half of a round: the IF token, the ENDIF token and the ELSE token. A round that
ends early leaves the buffer with its argument closed. -/
def find_statement (K : Kore) (buffer : β) : C (β ⊕ Statement β) := do
  match ← parser K buffer TOk_IF with
  | none => return .inl buffer
  | some m =>
    if m.argumentsz = 0 then return .inl buffer
    else do
      let (buffer, argument) ← closed_argument buffer m
      match ← kore_mem_find K (Buffer.region buffer) argument
        (Buffer.offset buffer - m.posx_length.toNat) TOk_ENDIF with
      | none => return .inl buffer
      | some stop =>
        let middle ← kore_mem_find K (Buffer.region buffer) argument (stop - m.posx_start)
          TOk_ELSE
        return .inr ⟨buffer, argument, m.posx_start, m.posx_length, stop, middle⟩

def Statement.replace_len (s : Statement β) (res : ℤ) : ℤ :=
  match s.middle with
  | none => if res = 0 then (s.stop : ℤ) - s.pos_start else s.pos_length
  | some middle => if res = 0 then (middle : ℤ) - s.pos_start else s.pos_length

/-- `middle` and `end` of the ELSE part in the new buffer. -/
def else_marks (K : Kore) (buffer : β) : C (Option (ℕ × ℕ)) :=
  find_marks K buffer TOk_ELSE TOk_ENDIF

/-- The second half of a round, after the head of the block was cut out. -/
def finish_statement (K : Kore) (buffer : β) (middle : Option ℕ) : C (Step β) := do
  match middle with
  | none =>
    let buffer ← aya_buf_replace_first_string K buffer TOk_ENDIF []
    return .next buffer
  | some _ =>
    match ← else_marks K buffer with
    | none => return .done buffer
    | some (middle, stop) =>
      let buffer ← Buffer.replace_string buffer middle ((stop : ℤ) - middle) []
      let buffer ← aya_buf_replace_first_string K buffer TOk_ENDIF []
      return .next buffer

def process_statement_body (K : Kore) (S : Symbols) (buffer : β) : C (Step β) := do
  match ← find_statement K buffer with
  | .inl buffer => return .done buffer
  | .inr s => do
    let var ← cstr (Buffer.region s.buffer) s.argument
    let res := get_vvar S var
    if res < 0 then return .done s.buffer
    else do
      let buffer ← Buffer.replace_string s.buffer s.pos_start (s.replace_len res) []
      finish_statement K buffer s.middle

/-- The text between the template directive and its end mark, cut out as a C string. -/
def template_body (K : Kore) (buffer : β) (begin : ℕ) : C (β × Option Bytes) := do
  match ← kore_mem_find K (Buffer.region buffer) 0 (Buffer.offset buffer) TOk_ENDTEMPLATE with
  | none => return (buffer, none)
  | some stop =>
    let data ← store (Buffer.region buffer) stop 0
    let body ← cstr data begin
    return (Buffer.written buffer data, some body)

def process_template (K : Kore) (S : Symbols) (buffer : β) : C β := do
  match ← parser K buffer TOk_TEMPLATE with
  | none => return buffer
  | some m =>
    if m.argumentsz = 0 then return buffer
    else do
      let (buffer, argument) ← closed_argument buffer m
      let name ← cstr (Buffer.region buffer) argument
      match include_asset S name with
      | none => return buffer
      | some asset =>
        let begin := argument + m.argumentsz.toNat + 1
        let (buffer, body) ← template_body K buffer begin
        match body with
        | none => return buffer
        | some body =>
          aya_buf_replace_first_string K (Buffer.buf_of buffer asset) yield_mark body

end ViewPasses
