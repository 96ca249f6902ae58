import Ayahesa.Argon2Base64
import Ayahesa.Argon2Fill
import Ayahesa.RandomBytes

/-! # Encoded hashes

The second part of `encoding.c`: a hash with its parameters as a text
`$argon2i$v=19$m=8,t=2,p=1$salt$tag`, written into a buffer and read back. -/
namespace Argon2Encoding

open CMemory CompatCopy DecimalText RandomBytes Argon2Hash Argon2Base64
open Argon2Memory (Argon2Type)
open Argon2Fill (refuse_bind_ok refuse_ok)

def argon2_type2string (type : Argon2Type) (uppercase : Bool) : Bytes :=
  match type with
  | .Argon2_d => bytes (if uppercase then "Argon2d" else "argon2d")
  | .Argon2_i => bytes (if uppercase then "Argon2i" else "argon2i")
  | .Argon2_id => bytes (if uppercase then "Argon2id" else "argon2id")

/-! ## Writing -/

/-- The part of the buffer behind what was written. -/
structure Writer where
  d : Block
  dst : ℕ
  dst_len : ℕ

/-- What the macros of `encode_string` write: a string, a number, the Base64 of a buffer. -/
inductive Piece where
  | SS (str : Bytes)
  | SX (x : U32)
  | SB (buf : Option Bytes) (len : U32)

/-- The text is written with its NUL, which the next piece overwrites. -/
def write_text (w : Writer) (str : Bytes) : C (Option Writer) :=
  if w.dst_len ≤ str.length then .ok none
  else do
    let d ← put w.d w.dst (str ++ [0])
    return some ⟨d, w.dst + str.length, w.dst_len - str.length⟩

def write_base64 (w : Writer) (buf : Bytes) : C (Option Writer) :=
  match to_base64 w.dst_len buf with
  | none => .ok none
  | some (written, sb_len) => do
    let d ← put w.d w.dst written
    return some ⟨d, w.dst + sb_len, w.dst_len - sb_len⟩

def write_piece (w : Writer) : Piece → C (Option Writer)
  | .SS str => write_text w str
  | .SX x => write_text w (digits x)
  | .SB buf len => write_base64 w ((buf.getD []).take len)

def write_pieces (w : Writer) : List Piece → C (Option Writer)
  | [] => .ok (some w)
  | p :: ps => do
    match ← write_piece w p with
    | none => return none
    | some w => write_pieces w ps

def pieces (ctx : Argon2Context) (type : Argon2Type) : List Piece := [
  .SS (bytes "$"), .SS (argon2_type2string type false),
  .SS (bytes "$v="), .SX ctx.version,
  .SS (bytes "$m="), .SX ctx.m_cost,
  .SS (bytes ",t="), .SX ctx.t_cost,
  .SS (bytes ",p="), .SX ctx.lanes,
  .SS (bytes "$"), .SB ctx.salt ctx.saltlen,
  .SS (bytes "$"), .SB ctx.out ctx.outlen]

def encode_string (d : Block) (dst_len : ℕ) (ctx : Argon2Context) (type : Argon2Type) :
    C (Except Argon2ErrorCode Block) :=
  match validate_inputs ctx with
  | .error e => .ok (.error e)
  | .ok () => do
    match ← write_pieces ⟨d, 0, dst_len⟩ (pieces ctx type) with
    | none => return .error .ARGON2_ENCODING_FAIL
    | some w => return .ok w.d

def numlen (num : ℕ) : ℕ := if 10 ≤ num then numlen (num / 10) + 1 else 1

def argon2_encodedlen (t_cost m_cost parallelism saltlen hashlen : U32) (type : Argon2Type) : ℕ :=
  (bytes "$$v=$m=,t=,p=$$").length + (argon2_type2string type false).length + numlen t_cost +
    numlen m_cost + numlen parallelism + b64len saltlen + b64len hashlen +
    numlen ARGON2_VERSION_NUMBER + 1

/-! ## Reading -/

def CC (literal : Bytes) (str : Bytes) : Except Argon2ErrorCode Bytes :=
  if literal <+: str then .ok (str.drop literal.length) else .error .ARGON2_DECODING_FAIL

/-- The number is cut to the type of its field. -/
def DECIMAL (str : Bytes) : Except Argon2ErrorCode (U32 × Bytes) :=
  match decode_decimal str with
  | none => .error .ARGON2_DECODING_FAIL
  | some (x, str) => .ok (u32 x, str)

def BIN (max_len : ℕ) (str : Bytes) : Except Argon2ErrorCode (Bytes × Bytes) :=
  match from_base64 max_len str with
  | none => .error .ARGON2_DECODING_FAIL
  | some (buf, str) =>
    if 2 ^ 32 - 1 < buf.length then .error .ARGON2_DECODING_FAIL else .ok (buf, str)

def ARGON2_VERSION_10 : U32 := u32 0x10

/-- The version may be left out. -/
def decode_version (str : Bytes) : Except Argon2ErrorCode (U32 × Bytes) :=
  if bytes "$v=" <+: str then DECIMAL (str.drop (bytes "$v=").length)
  else .ok (ARGON2_VERSION_10, str)

def decoded (ctx : Argon2Context) (version m_cost t_cost lanes : U32) (salt out : Bytes) :
    Argon2Context :=
  { ctx with
    version := version
    m_cost := m_cost
    t_cost := t_cost
    lanes := lanes
    threads := lanes
    salt := some salt
    saltlen := u32 salt.length
    out := some out
    outlen := u32 out.length
    secret := none
    secretlen := u32 0
    ad := none
    adlen := u32 0 }

def decode_string (ctx : Argon2Context) (str : Bytes) (type : Argon2Type) :
    Except Argon2ErrorCode Argon2Context := do
  let str ← CC (bytes "$") str
  let str ← CC (argon2_type2string type false) str
  let (version, str) ← decode_version str
  let str ← CC (bytes "$m=") str
  let (m_cost, str) ← DECIMAL str
  let str ← CC (bytes ",t=") str
  let (t_cost, str) ← DECIMAL str
  let str ← CC (bytes ",p=") str
  let (lanes, str) ← DECIMAL str
  let str ← CC (bytes "$") str
  let (salt, str) ← BIN ctx.saltlen str
  let str ← CC (bytes "$") str
  let (out, str) ← BIN ctx.outlen str
  let ctx := decoded ctx version m_cost t_cost lanes salt out
  validate_inputs ctx
  if str = [] then return ctx else .error .ARGON2_DECODING_FAIL

/-! ## What is written -/

section Write

def Piece.text : Piece → Bytes
  | .SS str => str
  | .SX x => digits x
  | .SB buf len => base64 ((buf.getD []).take len)

/-- A text and the rest of the buffer, in which `dst_len` bytes may be written. -/
structure Ahead (w : Writer) (text : Bytes) (behind : Block) : Prop where
  buffer : w.d = text.map some ++ behind
  dst : w.dst = text.length
  room : w.dst_len ≤ behind.length

def advance (w : Writer) (text str : Bytes) (behind : Block) : Writer :=
  ⟨terminated (text ++ str) ++ behind.drop (str.length + 1), w.dst + str.length,
    w.dst_len - str.length⟩

variable {w : Writer} {text : Bytes} {behind : Block}

theorem Ahead.advance (h : Ahead w text behind) {str : Bytes} (hlt : str.length < w.dst_len) :
    Ahead (advance w text str behind) (text ++ str)
      (some 0 :: behind.drop (str.length + 1)) := by
  have hroom := h.room
  constructor
  · simp [Argon2Encoding.advance, terminated]
  · simp [Argon2Encoding.advance, h.dst]
  · simp only [Argon2Encoding.advance, List.length_cons, List.length_drop]
    omega

theorem put_ahead (h : Ahead w text behind) {str : Bytes} (hlt : str.length < w.dst_len) :
    put w.d w.dst (str ++ [0]) =
      .ok (terminated (text ++ str) ++ behind.drop (str.length + 1)) := by
  have hroom := h.room
  have hlen : (text.map some : Block).length = w.dst := by rw [List.length_map, h.dst]
  rw [put, h.buffer, if_pos]
  · have hbefore : (text.map some ++ behind).take w.dst = text.map some := List.take_left' hlen
    have hdrop : (text.map some ++ behind).drop (w.dst + (str ++ [0]).length) =
        behind.drop (str.length + 1) := by
      rw [List.drop_append, List.drop_eq_nil_of_le (by omega), List.nil_append, hlen]
      congr 1
      simp
    rw [hbefore, hdrop]
    simp [terminated]
  · rw [List.length_append, List.length_append, hlen, List.length_singleton]
    omega

theorem write_text_eq (h : Ahead w text behind) (str : Bytes) :
    write_text w str =
      .ok (if w.dst_len ≤ str.length then none else some (advance w text str behind)) := by
  unfold write_text
  by_cases hle : w.dst_len ≤ str.length
  · rw [if_pos hle, if_pos hle]
  · rw [if_neg hle, if_neg hle, put_ahead h (Nat.lt_of_not_le hle)]
    rfl

theorem write_piece_eq (h : Ahead w text behind) (p : Piece) :
    write_piece w p =
      .ok (if w.dst_len ≤ p.text.length then none
        else some (advance w text p.text behind)) := by
  cases p with
  | SS str => exact write_text_eq h str
  | SX x => exact write_text_eq h (digits x)
  | SB buf len =>
    rw [write_piece, write_base64, to_base64_eq]
    by_cases hle : w.dst_len ≤ (base64 ((buf.getD []).take len)).length
    · rw [if_pos hle, Piece.text, if_pos hle]
    · rw [if_neg hle, Piece.text, if_neg hle]
      simp only [put_ahead h (Nat.lt_of_not_le hle)]
      rfl

theorem advance_advance (w : Writer) (text str next : Bytes) (behind : Block) :
    advance (advance w text str behind) (text ++ str) next
      (some 0 :: behind.drop (str.length + 1)) = advance w text (str ++ next) behind := by
  simp [advance, Nat.add_assoc, Nat.sub_sub, Nat.add_comm, Nat.add_left_comm]

/-- All pieces are written if there is room for their texts and one NUL. -/
theorem write_pieces_eq (h : Ahead w text behind) (p : Piece) (ps : List Piece) :
    write_pieces w (p :: ps) =
      .ok (if w.dst_len ≤ ((p :: ps).flatMap Piece.text).length then none
        else some (advance w text ((p :: ps).flatMap Piece.text) behind)) := by
  induction ps generalizing w text behind p with
  | nil =>
    rw [write_pieces, write_piece_eq h, List.flatMap_cons, List.flatMap_nil, List.append_nil]
    by_cases hle : w.dst_len ≤ p.text.length
    · rw [if_pos hle]
      rfl
    · rw [if_neg hle]
      rfl
  | cons q ps ih =>
    rw [write_pieces, write_piece_eq h, List.flatMap_cons, List.length_append]
    by_cases hle : w.dst_len ≤ p.text.length
    · rw [if_pos hle, if_pos (by omega)]
      rfl
    · rw [if_neg hle]
      have hnext := ih (h.advance (Nat.lt_of_not_le hle)) q
      rw [advance_advance] at hnext
      refine hnext.trans ?_
      have hroom : (advance w text p.text behind).dst_len ≤
          ((q :: ps).flatMap Piece.text).length ↔
          w.dst_len ≤ p.text.length + ((q :: ps).flatMap Piece.text).length := by
        simp only [advance]
        omega
      simp only [hroom]

end Write

def encoding (ctx : Argon2Context) (type : Argon2Type) : Bytes :=
  (pieces ctx type).flatMap Piece.text

theorem encode_string_eq {d : Block} {dst_len : ℕ} {ctx : Argon2Context} {type : Argon2Type}
    (hroom : dst_len ≤ d.length) (hvalid : validate_inputs ctx = .ok ()) :
    encode_string d dst_len ctx type =
      .ok (if dst_len ≤ (encoding ctx type).length then .error .ARGON2_ENCODING_FAIL
        else .ok (terminated (encoding ctx type) ++ d.drop ((encoding ctx type).length + 1))) := by
  have hstart : Ahead ⟨d, 0, dst_len⟩ [] d := ⟨rfl, rfl, hroom⟩
  have hwrite : write_pieces ⟨d, 0, dst_len⟩ (pieces ctx type) =
      .ok (if dst_len ≤ (encoding ctx type).length then none
        else some (advance ⟨d, 0, dst_len⟩ [] (encoding ctx type) d)) := write_pieces_eq hstart _ _
  simp only [encode_string, hvalid, hwrite]
  by_cases hle : dst_len ≤ (encoding ctx type).length
  · rw [if_pos hle, if_pos hle]
    rfl
  · rw [if_neg hle, if_neg hle]
    rfl

theorem numlen_eq (num : ℕ) : numlen num = (digits num).length := by
  induction num using Nat.strong_induction_on with
  | h num ih =>
    rw [numlen]
    by_cases h : 10 ≤ num
    · rw [if_pos h, ih (num / 10) (by omega), digits_of_ge h, List.length_append,
        List.length_singleton]
    · rw [if_neg h, digits_of_lt (Nat.lt_of_not_le h), List.length_singleton]

structure Filled (ctx : Argon2Context) (salt out : Bytes) : Prop where
  holds_salt : ctx.salt = some salt
  saltlen : salt.length = ctx.saltlen
  holds_out : ctx.out = some out
  outlen : out.length = ctx.outlen

section Context

variable {ctx ctx' : Argon2Context} {type : Argon2Type} {salt out : Bytes}

/-- The number of bytes that the text needs with its NUL is computed beforehand, as if the version
had the digits of the program's. -/
theorem encodedlen_version (h : Filled ctx salt out) :
    argon2_encodedlen ctx.t_cost ctx.m_cost ctx.lanes ctx.saltlen ctx.outlen type +
      numlen ctx.version = (encoding ctx type).length + 1 + numlen ARGON2_VERSION_NUMBER := by
  have hsalt : (base64 (salt.take ctx.saltlen)).length = b64len ctx.saltlen := by
    rw [base64_length, List.length_take, h.saltlen, Nat.min_self]
  have hout : (base64 (out.take ctx.outlen)).length = b64len ctx.outlen := by
    rw [base64_length, List.length_take, h.outlen, Nat.min_self]
  have hliterals : (bytes "$$v=$m=,t=,p=$$").length =
      (bytes "$").length + (bytes "$v=").length + (bytes "$m=").length + (bytes ",t=").length +
        (bytes ",p=").length + (bytes "$").length + (bytes "$").length := by decide
  simp only [argon2_encodedlen, encoding, pieces, List.flatMap_cons, List.flatMap_nil, Piece.text,
    List.length_append, List.length_nil, numlen_eq, h.holds_salt, h.holds_out, Option.getD_some,
    hsalt, hout, hliterals]
  omega

theorem encodedlen_eq (h : Filled ctx salt out)
    (hversion : (ctx.version : ℕ) = ARGON2_VERSION_NUMBER) :
    argon2_encodedlen ctx.t_cost ctx.m_cost ctx.lanes ctx.saltlen ctx.outlen type =
      (encoding ctx type).length + 1 := by
  have hlen := @encodedlen_version ctx type salt out h
  rw [hversion] at hlen
  exact Nat.add_right_cancel hlen

end Context

/-! ## What is read -/

/-- The parts of a text: its numbers, and the characters of the salt and of the tag. -/
structure Fields where
  version : Option ℕ
  m_cost : ℕ
  t_cost : ℕ
  lanes : ℕ
  salt : Bytes
  out : Bytes

def version_text : Option ℕ → Bytes
  | none => []
  | some version => bytes "$v=" ++ digits version

def Fields.text (f : Fields) (type : Argon2Type) : Bytes :=
  bytes "$" ++ (argon2_type2string type false ++ (version_text f.version ++
    (bytes "$m=" ++ (digits f.m_cost ++ (bytes ",t=" ++ (digits f.t_cost ++
      (bytes ",p=" ++ (digits f.lanes ++ (bytes "$" ++ (f.salt ++ (bytes "$" ++ f.out)))))))))))

/-- The context that a text gives: its numbers are cut to 32 bits. -/
def Fields.context (f : Fields) (ctx : Argon2Context) : Argon2Context :=
  decoded ctx (f.version.elim ARGON2_VERSION_10 u32) (u32 f.m_cost) (u32 f.t_cost) (u32 f.lanes)
    (octets f.salt) (octets f.out)

/-- Characters of the alphabet that make at most `max_len` bytes, with no bits left. -/
structure Encodes (chars : Bytes) (max_len : ℕ) : Prop where
  values : ∀ c ∈ chars, value c < 64
  whole : Whole (chars.map value)
  fits : (octets chars).length ≤ max_len

structure Fields.Readable (f : Fields) (saltlen outlen : ℕ) : Prop where
  version : ∀ v, f.version = some v → v < 2 ^ 64
  m_cost : f.m_cost < 2 ^ 64
  t_cost : f.t_cost < 2 ^ 64
  lanes : f.lanes < 2 ^ 64
  salt : Encodes f.salt saltlen
  out : Encodes f.out outlen

theorem bind_eq_ok {α β : Type} {x : Except Argon2ErrorCode α} {g : α → Except Argon2ErrorCode β}
    {b : β} : (x >>= g) = .ok b ↔ ∃ a, x = .ok a ∧ g a = .ok b := by
  cases x with
  | error e =>
    refine iff_of_false nofun ?_
    rintro ⟨a, ha, -⟩
    cases ha
  | ok a =>
    constructor
    · intro h
      exact ⟨a, rfl, h⟩
    · rintro ⟨a', ha, h⟩
      cases ha
      exact h

theorem cc_iff {literal str rest : Bytes} :
    CC literal str = .ok rest ↔ str = literal ++ rest := by
  unfold CC
  split
  · next h =>
    obtain ⟨rest', rfl⟩ := h
    rw [List.drop_left, Except.ok.injEq, List.append_cancel_left_eq]
  · next h =>
    refine iff_of_false nofun ?_
    rintro rfl
    exact h (List.prefix_append literal rest)

theorem decimal_iff {str rest : Bytes} {x : U32} :
    DECIMAL str = .ok (x, rest) ↔
      ∃ n, str = digits n ++ rest ∧ Ends rest ∧ n < 2 ^ 64 ∧ x = u32 n := by
  unfold DECIMAL
  cases hread : decode_decimal str with
  | none =>
    refine iff_of_false nofun ?_
    rintro ⟨n, hstr, hrest, hn, -⟩
    rw [decode_decimal_iff.mpr ⟨hstr, hrest, hn⟩] at hread
    cases hread
  | some p =>
    obtain ⟨n, rest'⟩ := p
    have hgot := decode_decimal_iff.mp hread
    constructor
    · intro h
      obtain ⟨rfl, rfl⟩ := Prod.mk.inj (Except.ok.inj h)
      exact ⟨n, hgot.1, hgot.2.1, hgot.2.2, rfl⟩
    · rintro ⟨n', hstr, hrest, hn, rfl⟩
      rw [decode_decimal_iff.mpr ⟨hstr, hrest, hn⟩] at hread
      obtain ⟨rfl, rfl⟩ := Prod.mk.inj (Option.some.inj hread)
      rfl

theorem bin_iff {max_len : U32} {str buf rest : Bytes} :
    BIN max_len str = .ok (buf, rest) ↔
      ∃ chars, str = chars ++ rest ∧ Stops rest ∧ Encodes chars max_len ∧ buf = octets chars := by
  unfold BIN
  cases hread : from_base64 max_len str with
  | none =>
    refine iff_of_false nofun ?_
    rintro ⟨chars, hstr, hrest, hchars, -⟩
    rw [from_base64_iff.mpr ⟨chars, hstr, hchars.values, hrest, hchars.whole, rfl, hchars.fits⟩]
      at hread
    cases hread
  | some p =>
    obtain ⟨buf', rest'⟩ := p
    obtain ⟨chars, hstr, hvalues, hrest, hwhole, hbuf, hfits⟩ := from_base64_iff.mp hread
    have hmax := max_len.isLt
    have hlen : ¬2 ^ 32 - 1 < buf'.length := by omega
    simp only [hlen, if_false]
    constructor
    · intro h
      obtain ⟨rfl, rfl⟩ := Prod.mk.inj (Except.ok.inj h)
      exact ⟨chars, hstr, hrest, ⟨hvalues, hwhole, by rw [hbuf]; exact hfits⟩, hbuf.symm⟩
    · rintro ⟨chars', hstr', hrest', hchars, rfl⟩
      rw [from_base64_iff.mpr ⟨chars', hstr', hchars.values, hrest', hchars.whole, rfl,
        hchars.fits⟩] at hread
      obtain ⟨rfl, rfl⟩ := Prod.mk.inj (Option.some.inj hread)
      rfl

theorem ends_of_not_digit {c : UInt8} (h : ¬IsDigit c) (rest : Bytes) : Ends (c :: rest) := by
  intro x hx
  rw [← Option.some.inj hx]
  exact h

/-- What stands behind the numbers is no digit. -/
theorem ends_memory (rest : Bytes) : Ends (bytes "$m=" ++ rest) :=
  ends_of_not_digit (by unfold IsDigit; decide) _

theorem ends_time (rest : Bytes) : Ends (bytes ",t=" ++ rest) :=
  ends_of_not_digit (by unfold IsDigit; decide) _

theorem ends_lanes (rest : Bytes) : Ends (bytes ",p=" ++ rest) :=
  ends_of_not_digit (by unfold IsDigit; decide) _

theorem ends_dollar (rest : Bytes) : Ends (bytes "$" ++ rest) :=
  ends_of_not_digit (by unfold IsDigit; decide) _

theorem stops_dollar (rest : Bytes) : Stops (bytes "$" ++ rest) := by
  intro c hc
  rw [← Option.some.inj hc]
  decide

/-- A text without a version does not look like one with a version. -/
theorem version_ne_memory (str rest : Bytes) : bytes "$v=" ++ str ≠ bytes "$m=" ++ rest := by
  intro h
  have hsecond : (118 : UInt8) = 109 := Option.some.inj (congrArg (·[1]?) h)
  exact absurd hsecond (by decide)

theorem decode_version_iff {str rest : Bytes} {version : U32} :
    decode_version str = .ok (version, bytes "$m=" ++ rest) ↔
      ∃ v : Option ℕ, str = version_text v ++ (bytes "$m=" ++ rest) ∧
        (∀ n, v = some n → n < 2 ^ 64) ∧ version = v.elim ARGON2_VERSION_10 u32 := by
  unfold decode_version
  split
  · next h =>
    obtain ⟨str, rfl⟩ := h
    rw [List.drop_left, decimal_iff]
    constructor
    · rintro ⟨n, rfl, -, hn, rfl⟩
      refine ⟨some n, ?_, ?_, rfl⟩
      · rw [version_text, List.append_assoc]
      · rintro _ ⟨⟩
        exact hn
    · rintro ⟨v, hstr, hv, rfl⟩
      cases v with
      | none => exact absurd hstr (version_ne_memory str rest)
      | some n =>
        rw [version_text, List.append_assoc, List.append_cancel_left_eq] at hstr
        exact ⟨n, hstr, ends_memory rest, hv n rfl, rfl⟩
  · next h =>
    constructor
    · intro hok
      obtain ⟨rfl, rfl⟩ := Prod.mk.inj (Except.ok.inj hok)
      exact ⟨none, rfl, nofun, rfl⟩
    · rintro ⟨v, rfl, hv, rfl⟩
      cases v with
      | none => rfl
      | some n =>
        refine absurd ?_ h
        rw [version_text, List.append_assoc]
        exact List.prefix_append _ _

theorem decode_string_iff {ctx ctx' : Argon2Context} {str : Bytes} {type : Argon2Type} :
    decode_string ctx str type = .ok ctx' ↔
      ∃ f : Fields, f.Readable ctx.saltlen ctx.outlen ∧ str = f.text type ∧
        ctx' = f.context ctx ∧ validate_inputs ctx' = .ok () := by
  simp only [decode_string, bind_eq_ok, cc_iff, Prod.exists, decimal_iff, bin_iff]
  constructor
  · rintro ⟨_, rfl, _, rfl, version, _, hversion, _, rfl, _, _, ⟨m, rfl, -, hm, rfl⟩, _, rfl, _, _,
      ⟨t, rfl, -, ht, rfl⟩, _, rfl, _, _, ⟨l, rfl, -, hl, rfl⟩, _, rfl, _, _,
      ⟨salt, rfl, -, hsalt, rfl⟩, _, rfl, _, rest, ⟨out, rfl, -, hout, rfl⟩, _, hvalid, hend⟩
    obtain ⟨v, rfl, hv, rfl⟩ := decode_version_iff.mp hversion
    split at hend
    · next hnil =>
      subst hnil
      cases hend
      refine ⟨⟨v, m, t, l, salt, out⟩, ⟨hv, hm, ht, hl, hsalt, hout⟩, ?_, rfl, hvalid⟩
      rw [Fields.text, List.append_nil]
    · cases hend
  · rintro ⟨f, h, rfl, rfl, hvalid⟩
    refine ⟨_, rfl, _, rfl, _, _, decode_version_iff.mpr ⟨f.version, rfl, h.version, rfl⟩, _, rfl,
      _, _, ⟨f.m_cost, rfl, ends_time _, h.m_cost, rfl⟩, _, rfl,
      _, _, ⟨f.t_cost, rfl, ends_lanes _, h.t_cost, rfl⟩, _, rfl,
      _, _, ⟨f.lanes, rfl, ends_dollar _, h.lanes, rfl⟩, _, rfl,
      _, _, ⟨f.salt, rfl, stops_dollar _, h.salt, rfl⟩, _, rfl,
      _, [], ⟨f.out, ?_, ?_, h.out, rfl⟩, _, hvalid, ?_⟩
    · exact (List.append_nil _).symm
    · exact nofun
    · exact if_pos rfl

/-! ## Round trips -/

def fields (ctx : Argon2Context) (salt out : Bytes) : Fields :=
  ⟨some ctx.version, ctx.m_cost, ctx.t_cost, ctx.lanes, base64 salt, base64 out⟩

section RoundTrip

variable {ctx reader : Argon2Context} {type : Argon2Type} {salt out : Bytes}

theorem encoding_fields (h : Filled ctx salt out) :
    encoding ctx type = (fields ctx salt out).text type := by
  have hsalt : salt.take ctx.saltlen = salt := by rw [← h.saltlen, List.take_length]
  have hout : out.take ctx.outlen = out := by rw [← h.outlen, List.take_length]
  simp only [encoding, pieces, List.flatMap_cons, List.flatMap_nil, Piece.text, h.holds_salt,
    h.holds_out, Option.getD_some, hsalt, hout, List.append_nil, Fields.text, fields, version_text,
    List.append_assoc]

theorem encodes_base64 {x : Bytes} {max_len : ℕ} (h : x.length ≤ max_len) :
    Encodes (base64 x) max_len := by
  refine ⟨base64_values x, ?_, ?_⟩
  · rw [map_value_base64]
    exact whole_pack _
  · rw [octets_base64]
    exact h

theorem fields_readable {saltlen outlen : ℕ} (hsalt : salt.length ≤ saltlen)
    (hout : out.length ≤ outlen) : (fields ctx salt out).Readable saltlen outlen := by
  have hversion := ctx.version.isLt
  have hm := ctx.m_cost.isLt
  have ht := ctx.t_cost.isLt
  have hl := ctx.lanes.isLt
  refine ⟨?_, ?_, ?_, ?_, encodes_base64 hsalt, encodes_base64 hout⟩
  · rintro _ ⟨⟩
    omega
  · simp only [fields]
    omega
  · simp only [fields]
    omega
  · simp only [fields]
    omega

theorem u32_val (n : U32) : u32 n = n := Fin.ofNat_val_eq_self n

theorem fields_out : octets (fields ctx salt out).out = out := octets_base64 out

theorem fields_context : (fields ctx salt out).context reader =
    decoded reader ctx.version ctx.m_cost ctx.t_cost ctx.lanes salt out := by
  simp only [Fields.context, fields, Option.elim_some, u32_val, octets_base64]

theorem decoded_valid (hvalid : validate_inputs ctx = .ok ()) (h : Filled ctx salt out)
    (hpwd : reader.pwd = none → (reader.pwdlen : ℕ) = 0) :
    validate_inputs (decoded reader ctx.version ctx.m_cost ctx.t_cost ctx.lanes salt out) =
      .ok () := by
  have hsaltlen : (u32 salt.length : ℕ) = ctx.saltlen := by rw [h.saltlen, u32_val]
  have houtlen : (u32 out.length : ℕ) = ctx.outlen := by rw [h.outlen, u32_val]
  simp only [validate_inputs, refuse_bind_ok, refuse_ok] at hvalid ⊢
  obtain ⟨-, hout, -, -, hsalt, -, -, hleast, hmem, htime, hfew, hmany, -⟩ := hvalid
  refine ⟨Option.some_ne_none out, ?_, ?_, fun hnone => Option.some_ne_none salt hnone.1, ?_, ?_,
    ?_, hleast, hmem, htime, hfew, hmany, hfew, hmany⟩
  · change ¬ARGON2_MIN_OUTLEN > (u32 out.length : ℕ)
    rw [houtlen]
    exact hout
  · rintro ⟨hnone, hlen⟩
    exact hlen (hpwd hnone)
  · change ¬ARGON2_MIN_SALT_LENGTH > (u32 salt.length : ℕ)
    rw [hsaltlen]
    exact hsalt
  · rintro ⟨-, hlen⟩
    exact hlen rfl
  · rintro ⟨-, hlen⟩
    exact hlen rfl

def TextChar (c : UInt8) : Prop := value c < 64 ∨ c ∈ bytes "$,="

instance (c : UInt8) : Decidable (TextChar c) := inferInstanceAs (Decidable (_ ∨ _))

theorem digits_chars (n : ℕ) : ∀ c ∈ digits n, TextChar c := by
  intro c hc
  obtain ⟨hlow, hhigh⟩ := digits_range hc
  have hdigit : ∀ d < 10, value (digit d) < 64 := by decide +kernel
  have hchar : digit (c.toNat - 48) = c := by
    apply UInt8.toNat_inj.mp
    rw [digit_toNat (by omega)]
    omega
  have hvalue := hdigit (c.toNat - 48) (by omega)
  rw [hchar] at hvalue
  exact .inl hvalue

theorem text_chars {f : Fields} {saltlen outlen : ℕ} (h : f.Readable saltlen outlen)
    (type : Argon2Type) : ∀ c ∈ f.text type, TextChar c := by
  have htype : ∀ c ∈ argon2_type2string type false, TextChar c := by cases type <;> decide +kernel
  have hversion : ∀ c ∈ version_text f.version, TextChar c := by
    cases f.version with
    | none => exact fun c hc => nomatch hc
    | some v =>
      rw [version_text, List.forall_mem_append]
      exact ⟨by decide +kernel, digits_chars v⟩
  simp only [Fields.text, List.forall_mem_append]
  exact ⟨by decide +kernel, htype, hversion, by decide +kernel, digits_chars _,
    by decide +kernel, digits_chars _, by decide +kernel, digits_chars _, by decide +kernel,
    fun c hc => .inl (h.salt.values c hc), by decide +kernel,
    fun c hc => .inl (h.out.values c hc)⟩

theorem encoding_chars (hfilled : Filled ctx salt out) : ∀ c ∈ encoding ctx type, TextChar c := by
  rw [encoding_fields hfilled]
  have hread := @fields_readable ctx salt out ctx.saltlen ctx.outlen
    (Nat.le_of_eq hfilled.saltlen) (Nat.le_of_eq hfilled.outlen)
  exact text_chars hread type

theorem encoding_clean (hfilled : Filled ctx salt out) : 0 ∉ encoding ctx type := by
  intro hzero
  exact absurd (encoding_chars hfilled 0 hzero) (by decide)

theorem decode_encoding (hvalid : validate_inputs ctx = .ok ()) (hfilled : Filled ctx salt out)
    (hsalt : ctx.saltlen ≤ reader.saltlen) (hout : ctx.outlen ≤ reader.outlen)
    (hpwd : reader.pwd = none → (reader.pwdlen : ℕ) = 0) :
    decode_string reader (encoding ctx type) type =
      .ok (decoded reader ctx.version ctx.m_cost ctx.t_cost ctx.lanes salt out) := by
  apply decode_string_iff.mpr
  refine ⟨fields ctx salt out, ?_, encoding_fields hfilled, fields_context.symm,
    decoded_valid hvalid hfilled hpwd⟩
  exact fields_readable (hfilled.saltlen.trans_le hsalt) (hfilled.outlen.trans_le hout)

/-- A valid context is written exactly if its text and the NUL fit into the buffer, and the text
is read back as that context. The computed length takes the version to have two digits. -/
theorem encode_string_round_trip {d : Block} {dst_len : ℕ} (hroom : dst_len ≤ d.length)
    (hvalid : validate_inputs ctx = .ok ()) (hfilled : Filled ctx salt out)
    (hsalt : ctx.saltlen ≤ reader.saltlen) (hout : ctx.outlen ≤ reader.outlen)
    (hpwd : reader.pwd = none → (reader.pwdlen : ℕ) = 0) :
    if dst_len + numlen ARGON2_VERSION_NUMBER <
        argon2_encodedlen ctx.t_cost ctx.m_cost ctx.lanes ctx.saltlen ctx.outlen type +
          numlen ctx.version then
      encode_string d dst_len ctx type = .ok (.error .ARGON2_ENCODING_FAIL)
    else ∃ d' text, encode_string d dst_len ctx type = .ok (.ok d') ∧ contents d' = .ok text ∧
      decode_string reader text type =
        .ok (decoded reader ctx.version ctx.m_cost ctx.t_cost ctx.lanes salt out) := by
  have hlen := @encodedlen_version ctx type salt out hfilled
  have hwrite := @encode_string_eq d dst_len ctx type hroom hvalid
  split
  · next hlt =>
    rw [hwrite, if_pos]
    omega
  · next hge =>
    rw [if_neg (by omega)] at hwrite
    exact ⟨_, encoding ctx type, hwrite, contents_terminated (encoding_clean hfilled) _,
      decode_encoding hvalid hfilled hsalt hout hpwd⟩

end RoundTrip

def tagged_context : Argon2Context where
  out := some (List.replicate 32 7)
  outlen := u32 32
  pwd := some (bytes "password")
  pwdlen := u32 8
  salt := some (bytes "somesaltsomesalt")
  saltlen := u32 16
  secret := none
  secretlen := u32 0
  ad := none
  adlen := u32 0
  t_cost := u32 2
  m_cost := u32 8
  lanes := u32 1
  threads := u32 1
  version := u32 0x13

theorem encode_string_round_trip_password : ∃ d' text,
    encode_string (aya_malloc 100) 100 tagged_context .Argon2_i = .ok (.ok d') ∧
    contents d' = .ok text ∧
    decode_string tagged_context text .Argon2_i =
      .ok (decoded tagged_context 0x13 8 2 1 (bytes "somesaltsomesalt") (List.replicate 32 7)) := by
  have hfilled : Filled tagged_context (bytes "somesaltsomesalt") (List.replicate 32 7) :=
    ⟨rfl, rfl, rfl, rfl⟩
  have htrip := @encode_string_round_trip tagged_context tagged_context .Argon2_i _ _
    (aya_malloc 100) 100 (by decide) (by decide) hfilled (Nat.le_refl _) (Nat.le_refl _) nofun
  rwa [@encodedlen_version tagged_context .Argon2_i _ _ hfilled, if_neg (by decide +kernel)]
    at htrip

/-! ## One text for each context -/

section Canonical

variable {ctx ctx' : Argon2Context} {type : Argon2Type}

theorem digits_append_inj {n n' : ℕ} {rest rest' : Bytes}
    (h : digits n ++ rest = digits n' ++ rest') (hrest : Ends rest) (hrest' : Ends rest')
    (hn : n < 2 ^ 64) (hn' : n' < 2 ^ 64) : n = n' ∧ rest = rest' := by
  have hread := decode_decimal_iff.mpr ⟨rfl, hrest, hn⟩
  rw [decode_decimal_iff.mpr ⟨h, hrest', hn'⟩] at hread
  obtain ⟨rfl, rfl⟩ := Prod.mk.inj (Option.some.inj hread)
  exact ⟨rfl, rfl⟩

theorem takeWhile_chars {chars rest : Bytes} (hchars : ∀ c ∈ chars, value c < 64)
    (hrest : Stops rest) : (chars ++ rest).takeWhile (value · < 64) = chars := by
  rw [List.takeWhile_append_of_pos fun c hc => decide_eq_true (hchars c hc)]
  cases rest with
  | nil => exact List.append_nil chars
  | cons c rest =>
    have hc : ¬value c < 64 := by
      rw [hrest c rfl]
      decide
    rw [List.takeWhile_cons_of_neg (by simpa using hc), List.append_nil]

theorem chars_append_inj {chars chars' rest rest' : Bytes} (h : chars ++ rest = chars' ++ rest')
    (hchars : ∀ c ∈ chars, value c < 64) (hchars' : ∀ c ∈ chars', value c < 64)
    (hrest : Stops rest) (hrest' : Stops rest') : chars = chars' ∧ rest = rest' := by
  have hsame := takeWhile_chars hchars hrest
  rw [h, takeWhile_chars hchars' hrest'] at hsame
  subst hsame
  exact ⟨rfl, List.append_cancel_left h⟩

theorem version_text_inj {v v' : Option ℕ} {rest rest' : Bytes}
    (h : version_text v ++ (bytes "$m=" ++ rest) = version_text v' ++ (bytes "$m=" ++ rest'))
    (hv : ∀ n, v = some n → n < 2 ^ 64) (hv' : ∀ n, v' = some n → n < 2 ^ 64) :
    v = v' ∧ rest = rest' := by
  cases v with
  | none =>
    cases v' with
    | none => exact ⟨rfl, List.append_cancel_left h⟩
    | some n =>
      rw [version_text, version_text, List.append_assoc] at h
      exact absurd h.symm (version_ne_memory _ _)
  | some n =>
    cases v' with
    | none =>
      rw [version_text, version_text, List.append_assoc] at h
      exact absurd h (version_ne_memory _ _)
    | some n' =>
      rw [version_text, version_text, List.append_assoc, List.append_assoc,
        List.append_cancel_left_eq] at h
      obtain ⟨rfl, hrest⟩ := digits_append_inj h (ends_memory rest) (ends_memory rest')
        (hv n rfl) (hv' n' rfl)
      exact ⟨rfl, List.append_cancel_left hrest⟩

theorem text_injective {f g : Fields} {saltlen outlen saltlen' outlen' : ℕ}
    (hf : f.Readable saltlen outlen) (hg : g.Readable saltlen' outlen')
    (h : f.text type = g.text type) : f = g := by
  obtain ⟨v, m, t, l, salt, out⟩ := f
  obtain ⟨v', m', t', l', salt', out'⟩ := g
  simp only [Fields.text, List.append_cancel_left_eq] at h
  obtain ⟨rfl, hm⟩ := version_text_inj h hf.version hg.version
  obtain ⟨rfl, ht⟩ := digits_append_inj hm (ends_time _) (ends_time _) hf.m_cost hg.m_cost
  obtain ⟨rfl, hl⟩ := digits_append_inj (List.append_cancel_left ht) (ends_lanes _) (ends_lanes _)
    hf.t_cost hg.t_cost
  obtain ⟨rfl, hsalt⟩ := digits_append_inj (List.append_cancel_left hl) (ends_dollar _)
    (ends_dollar _) hf.lanes hg.lanes
  obtain ⟨rfl, hout⟩ := chars_append_inj (List.append_cancel_left hsalt) hf.salt.values
    hg.salt.values (stops_dollar _) (stops_dollar _)
  obtain rfl := List.append_cancel_left hout
  rfl

theorem base64_octets_iff {chars : Bytes} {max_len : ℕ} (h : Encodes chars max_len) :
    base64 (octets chars) = chars ↔ ∀ c ∈ chars, c.toNat < 128 := by
  have hchar : ∀ c ∈ chars, char (value c) = if 128 ≤ c.toNat then 47 else c := by
    intro c hc
    have hsame := char_value c.toNat c.toNat_lt
    rw [Nat.toUInt8_eq, UInt8.ofNat_toNat] at hsame
    exact hsame (h.values c hc)
  rw [base64_octets h.values h.whole]
  constructor
  · intro hsame c hc
    have hself : (char ∘ value) c = c :=
      List.map_inj_left.mp (hsame.trans (List.map_id chars).symm) c hc
    rw [Function.comp_apply, hchar c hc] at hself
    by_contra hhigh
    rw [if_pos (Nat.le_of_not_lt hhigh)] at hself
    rw [← hself] at hhigh
    exact hhigh (by decide)
  · intro hlow
    refine (List.map_congr_left fun c hc => ?_).trans (List.map_id chars)
    rw [Function.comp_apply, hchar c hc, if_neg (Nat.not_le.mpr (hlow c hc))]
    rfl

/-- A text with its version, with numbers of 32 bits and without bytes from 128 on. -/
structure Fields.Canonical (f : Fields) : Prop where
  version : ∃ v < 2 ^ 32, f.version = some v
  m_cost : f.m_cost < 2 ^ 32
  t_cost : f.t_cost < 2 ^ 32
  lanes : f.lanes < 2 ^ 32
  salt : ∀ c ∈ f.salt, c.toNat < 128
  out : ∀ c ∈ f.out, c.toNat < 128

theorem u32_eq_iff {n : ℕ} : (u32 n : ℕ) = n ↔ n < 2 ^ 32 := by
  change n % 2 ^ 32 = n ↔ n < 2 ^ 32
  omega

theorem context_filled (f : Fields) {saltlen outlen : U32} (h : f.Readable saltlen outlen) :
    Filled (f.context ctx) (octets f.salt) (octets f.out) := by
  have hsalt := h.salt.fits
  have hout := h.out.fits
  have hsaltlen := saltlen.isLt
  have houtlen := outlen.isLt
  exact ⟨rfl, (u32_eq_iff.mpr (by omega)).symm, rfl, (u32_eq_iff.mpr (by omega)).symm⟩

theorem fields_context_iff {f : Fields} {saltlen outlen : ℕ} (h : f.Readable saltlen outlen) :
    fields (f.context ctx) (octets f.salt) (octets f.out) = f ↔ f.Canonical := by
  obtain ⟨v, m, t, l, salt, out⟩ := f
  simp only [fields, Fields.context, decoded, Fields.mk.injEq, u32_eq_iff,
    base64_octets_iff h.salt, base64_octets_iff h.out]
  constructor
  · rintro ⟨hv, hm, ht, hl, hsalt, hout⟩
    refine ⟨?_, hm, ht, hl, hsalt, hout⟩
    cases v with
    | none => cases hv
    | some n => exact ⟨n, u32_eq_iff.mp (Option.some.inj hv), rfl⟩
  · rintro ⟨⟨n, hn, rfl⟩, hm, ht, hl, hsalt, hout⟩
    exact ⟨congrArg some (u32_eq_iff.mpr hn), hm, ht, hl, hsalt, hout⟩

/-- Of the texts that are read as one context, the one that is written for it is the canonical
one: a text without its version, with a larger number or with a byte that stands for `/` is read
as a context that is written in another way. -/
theorem encoding_decode_string_iff {str : Bytes} (h : decode_string ctx str type = .ok ctx') :
    encoding ctx' type = str ↔
      ∃ f : Fields, f.Readable ctx.saltlen ctx.outlen ∧ f.Canonical ∧ str = f.text type := by
  obtain ⟨f, hf, rfl, rfl, -⟩ := decode_string_iff.mp h
  have hread : (fields (f.context ctx) (octets f.salt) (octets f.out)).Readable ctx.saltlen
    ctx.outlen := fields_readable hf.salt.fits hf.out.fits
  rw [encoding_fields (context_filled f hf)]
  constructor
  · intro hsame
    have hfields := text_injective hread hf hsame
    exact ⟨f, hf, (fields_context_iff hf).mp hfields, rfl⟩
  · rintro ⟨g, hg, hcanonical, hsame⟩
    obtain rfl := text_injective hf hg hsame
    rw [(fields_context_iff hf).mpr hcanonical]

def unversioned : Fields := ⟨none, 8, 2, 1, bytes "AAAAAAAAAAA", bytes "AAAAAA"⟩

theorem unversioned_readable : unversioned.Readable 16 32 := by
  refine ⟨nofun, by decide, by decide, by decide, ⟨?_, ?_, ?_⟩, ⟨?_, ?_, ?_⟩⟩ <;> decide +kernel

theorem encoding_decode_string_iff_unversioned :
    encoding (unversioned.context tagged_context) .Argon2_i ≠ unversioned.text .Argon2_i := by
  have hread : decode_string tagged_context (unversioned.text .Argon2_i) .Argon2_i =
      .ok (unversioned.context tagged_context) :=
    decode_string_iff.mpr ⟨unversioned, unversioned_readable, rfl, rfl, by decide⟩
  intro hsame
  obtain ⟨f, hf, hcanonical, htext⟩ := (encoding_decode_string_iff hread).mp hsame
  obtain rfl := text_injective unversioned_readable hf htext
  obtain ⟨v, -, hv⟩ := hcanonical.version
  cases hv

end Canonical

end Argon2Encoding
