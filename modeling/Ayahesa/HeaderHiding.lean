import Ayahesa.EventRuns
import Ayahesa.StoredFiles

/-! # What the users of a handle see of its header

A handle knows whether its header was written or read, not where its stream stands. Taking the
size leaves the stream at the start of the file, in front of the header. -/
namespace HeaderHiding

open CMemory FileStream AyaFile StoredFiles EventRuns

/-- An access of one kind, or a look at the size. -/
inductive Call (α : Type) where
  | access (a : α)
  | size

def Call.is_size {α : Type} : Call α → Bool
  | .access _ => false
  | .size => true

/-- The calls from the first access on, behind which there is a header. -/
def from_first {α : Type} (past : List (Call α)) : List (Call α) := past.dropWhile Call.is_size

/-- The size was taken behind calls that had left the handle with a header. -/
def Rewound {α : Type} (headed : List (Call α) → Prop) (past : List (Call α)) : Prop :=
  ∃ before after, past = before ++ .size :: after ∧ headed before

section Calls

variable {α : Type} {headed : List (Call α) → Prop} {past : List (Call α)} {a : α}

end Calls

structure Block where
  ptr : Bytes
  size : ℕ
  nmemb : ℕ
  holds : size * nmemb ≤ ptr.length
  memory : ptr.length < 2 ^ 64

def Block.data (b : Block) : Bytes := b.ptr.take (b.size * b.nmemb)

def write_step (random : Bytes) (afp : AYAFILE) : Call Block → Option AYAFILE
  | .access b => (afwrite random b.ptr b.size b.nmemb afp).toOption.map Prod.snd
  | .size => some (afsize afp).2

def payload (calls : List (Call Block)) : Bytes :=
  calls.flatMap fun
    | .access b => b.data
    | .size => []

def stored (random : Bytes) (calls : List (Call Block)) : Bytes :=
  if from_first calls = [] then [] else header random ++ payload calls

def WriteHeaded (random : Bytes) (opened : AYAFILE) (past : List (Call Block)) : Prop :=
  ∃ afp, run (write_step random) opened past = some afp ∧ afp.has_header = true

/-- A block has at most one item, and no size was taken since there is a header; a write of no
bytes is always good. -/
def Plain (random : Bytes) (opened : AYAFILE) (past : List (Call Block)) : Call Block → Prop
  | .access b => b.size * b.nmemb = 0 ∨
      (b.nmemb = 1 ∧ ¬Rewound (WriteHeaded random opened) past)
  | .size => True

section Write

variable {random path : Bytes} {past : List (Call Block)} {opened afp : AYAFILE} {b : Block}

end Write

/-! ## Reading -/

structure Request where
  ptr : Bytes
  size : ℕ
  nmemb : ℕ
  holds : size * nmemb ≤ ptr.length

/-- The handle stands behind what it has returned, or at the end. -/
def Placed (fp : FILE) (got : Bytes) : Prop :=
  fp.stream.pos = sizeof_cryptfile + got.length ∨ fp.stream.pos = fp.stream.content.length

section Read

variable {file data : Bytes} {reader : AYAFILE} {past : List (Call Request)} {r : Reader}
  {q : Request}

end Read

/-! ## A handle that writes and one that reads -/

end HeaderHiding
