import Mathlib.Tactic.IntervalCases
import Ayahesa.CMemory
import Ayahesa.SextetCodec

/-! # The base64url codec of `base64url.c`

Both loops write their output from `result[0]` on without gaps, so the written bytes are
returned in order and the caller stores them. Input is read through `load`: a result that
is not a fault read only bytes of the input. -/
namespace Base64urlCodec

open CMemory SextetCodec

def b64 : Bytes := bytes "ABCDEFGHIJKLMNOPQRSTUVWXYZabcdefghijklmnopqrstuvwxyz0123456789-_"

def unb64 : Bytes := [
  0, 0, 0, 0, 0, 0, 0, 0, 0, 0, 0, 0, 0, 0, 0, 0,
  0, 0, 0, 0, 0, 0, 0, 0, 0, 0, 0, 0, 0, 0, 0, 0,
  0, 0, 0, 0, 0, 0, 0, 0, 0, 0, 0, 0, 0, 62, 0, 0,
  52, 53, 54, 55, 56, 57, 58, 59, 60, 61, 0, 0, 0, 0, 0, 0,
  0, 0, 1, 2, 3, 4, 5, 6, 7, 8, 9, 10, 11, 12, 13, 14,
  15, 16, 17, 18, 19, 20, 21, 22, 23, 24, 25, 0, 0, 0, 0, 63,
  0, 26, 27, 28, 29, 30, 31, 32, 33, 34, 35, 36, 37, 38, 39, 40,
  41, 42, 43, 44, 45, 46, 47, 48, 49, 50, 51, 0, 0, 0, 0, 0,
  0, 0, 0, 0, 0, 0, 0, 0, 0, 0, 0, 0, 0, 0, 0, 0,
  0, 0, 0, 0, 0, 0, 0, 0, 0, 0, 0, 0, 0, 0, 0, 0,
  0, 0, 0, 0, 0, 0, 0, 0, 0, 0, 0, 0, 0, 0, 0, 0,
  0, 0, 0, 0, 0, 0, 0, 0, 0, 0, 0, 0, 0, 0, 0, 0,
  0, 0, 0, 0, 0, 0, 0, 0, 0, 0, 0, 0, 0, 0, 0, 0,
  0, 0, 0, 0, 0, 0, 0, 0, 0, 0, 0, 0, 0, 0, 0, 0,
  0, 0, 0, 0, 0, 0, 0, 0, 0, 0, 0, 0, 0, 0, 0, 0,
  0, 0, 0, 0, 0, 0, 0, 0, 0, 0, 0, 0, 0, 0, 0, 0]

def size_sub (x y : ℕ) : ℕ := size_t (x + 2 ^ 64 - y)

/-- The `for` loop of `base64url_encode`; a pass needs three more bytes of input, so the
length of the input bounds the number of passes. -/
def encodeLoop (data : Bytes) : ℕ → ℕ → Bytes → C (ℕ × Bytes)
  | 0, byteNo, result => .ok (byteNo, result)
  | n + 1, byteNo, result =>
    if byteNo + 3 ≤ data.length then do
      let BYTE0 ← load data byteNo
      let BYTE1 ← load data (byteNo + 1)
      let BYTE2 ← load data (byteNo + 2)
      let c0 ← load b64 (BYTE0.toNat >>> 2)
      let c1 ← load b64 (((0x3 &&& BYTE0.toNat) <<< 4) + (BYTE1.toNat >>> 4))
      let c2 ← load b64 (((0x0f &&& BYTE1.toNat) <<< 2) + (BYTE2.toNat >>> 6))
      let c3 ← load b64 (0x3f &&& BYTE2.toNat)
      encodeLoop data n (byteNo + 3) (result ++ [c0, c1, c2, c3])
    else .ok (byteNo, result)

/-- `pad` of `base64url_encode`: 2 gives 1 and 1 gives 2, but 0 gives 0. -/
def encodePad (data_len : ℕ) : ℕ :=
  let modulusLen := data_len % 3
  ((modulusLen &&& 1) <<< 1) + ((modulusLen &&& 2) >>> 1)

/-- The bytes written to `result`, the NUL included, and `*result_len`. -/
def base64url_encode (data : Bytes) : C (Bytes × ℕ) := do
  let data_len := data.length
  let pad := encodePad data_len
  let result_len := size_t (4 * (data_len + pad)) / 3
  let (byteNo, result) ← encodeLoop data data_len 0 []
  if pad = 2 then do
    let d0 ← load data byteNo
    let c0 ← load b64 (d0.toNat >>> 2)
    let c1 ← load b64 ((0x3 &&& d0.toNat) <<< 4)
    return (result ++ [c0, c1] ++ [0], size_sub result_len 2)
  else if pad = 1 then do
    let d0 ← load data byteNo
    let d1 ← load data (byteNo + 1)
    let c0 ← load b64 (d0.toNat >>> 2)
    let c1 ← load b64 (((0x3 &&& d0.toNat) <<< 4) + (d1.toNat >>> 4))
    let c2 ← load b64 ((0x0f &&& d1.toNat) <<< 2)
    return (result ++ [c0, c1, c2] ++ [0], size_sub result_len 1)
  else return (result ++ [0], result_len)

def sextet (data : Bytes) (i : ℕ) : C ℕ := do
  let c ← load data i
  let v ← load unb64 c.toNat
  return v.toNat

/-- The `for` loop of `base64url_decode`; a pass needs four more characters of input. -/
def decodeLoop (data : Bytes) (pad data_len : ℕ) : ℕ → ℕ → Bytes → C (ℕ × Bytes)
  | 0, charNo, result => .ok (charNo, result)
  | n + 1, charNo, result =>
    if charNo + 4 + pad ≤ data_len then do
      let A ← sextet data charNo
      let B ← sextet data (charNo + 1)
      let C ← sextet data (charNo + 2)
      let D ← sextet data (charNo + 3)
      decodeLoop data pad data_len n (charNo + 4) (result ++
        [((A <<< 2) ||| (B >>> 4)).toUInt8, ((B <<< 4) ||| (C >>> 2)).toUInt8,
          ((C <<< 6) ||| D).toUInt8])
    else .ok (charNo, result)

/-- `pad` and the inflated `data_len` for a length other than one. -/
def decodePad (data_len : ℕ) : ℕ × ℕ :=
  if data_len = 2 then (2, 4)
  else if data_len % 4 = 2 then (2, size_t (data_len + 2))
  else if data_len % 4 = 3 then (1, size_t (data_len + 1))
  else (0, data_len)

/-- The bytes written to `result` and `*result_len`; on a single character the function
returns early and leaves `*result_len` unset. -/
def base64url_decode (data : Bytes) : C (Bytes × Option ℕ) :=
  if data.length = 1 then .ok ([], none)
  else do
    let (pad, data_len) := decodePad data.length
    let result_len := size_sub (size_t (3 * data_len) / 4) pad
    let (charNo, result) ← decodeLoop data pad data_len data.length 0 []
    if pad = 1 then do
      let A ← sextet data charNo
      let B ← sextet data (charNo + 1)
      let C ← sextet data (charNo + 2)
      return (result ++ [((A <<< 2) ||| (B >>> 4)).toUInt8, ((B <<< 4) ||| (C >>> 2)).toUInt8],
        some result_len)
    else if pad = 2 then do
      let A ← sextet data charNo
      let B ← sextet data (charNo + 1)
      return (result ++ [((A <<< 2) ||| (B >>> 4)).toUInt8], some result_len)
    else return (result, some result_len)

def charOf (v : ℕ) : UInt8 := b64.getD v 0

def valueOf (c : UInt8) : ℕ := (unb64.getD c.toNat 0).toNat

def text (x : Bytes) : Bytes := (pack (x.map UInt8.toNat)).map charOf

def octets (s : Bytes) : Bytes := (unpack (s.map valueOf)).map Nat.toUInt8

set_option maxRecDepth 10000 in
theorem valueOf_charOf : ∀ v < 64, valueOf (charOf v) = v := by decide

set_option maxRecDepth 10000 in
theorem charOf_valueOf : ∀ c ∈ b64, charOf (valueOf c) = c := by decide

set_option maxRecDepth 10000 in
theorem charOf_mem : ∀ v < 64, charOf v ∈ b64 := by decide

set_option maxRecDepth 10000 in
private theorem unb64_lt : ∀ v ∈ unb64, v.toNat < 64 := by decide

theorem b64_length : b64.length = 64 := by decide

set_option maxRecDepth 10000 in
theorem unb64_length : unb64.length = 256 := by decide

theorem load_b64 {v : ℕ} (h : v < 64) : load b64 v = .ok (charOf v) := by
  have hlen : v < b64.length := by rw [b64_length]; exact h
  simp [load, charOf, List.getElem?_eq_getElem hlen, List.getD_eq_getElem?_getD]

theorem load_unb64 (c : UInt8) : load unb64 c.toNat = .ok (unb64.getD c.toNat 0) := by
  have hlen : c.toNat < unb64.length := by rw [unb64_length]; exact c.toNat_lt
  simp [load, List.getElem?_eq_getElem hlen, List.getD_eq_getElem?_getD]

theorem valueOf_lt (c : UInt8) : valueOf c < 64 := by
  have hlen : c.toNat < unb64.length := by rw [unb64_length]; exact c.toNat_lt
  have hmem : unb64.getD c.toNat 0 ∈ unb64 := by
    rw [List.getD_eq_getElem?_getD, List.getElem?_eq_getElem hlen]
    exact List.getElem_mem hlen
  exact unb64_lt _ hmem

private theorem sextet_of_get {data : Bytes} {i : ℕ} {c : UInt8} (h : data[i]? = some c) :
    sextet data i = .ok (valueOf c) := by
  simp [sextet, load_of_get h, load_unb64, valueOf, bind, Except.bind, pure, Except.pure]

private theorem and_3 (n : ℕ) : 3 &&& n = n % 4 := by
  rw [Nat.and_comm]; exact Nat.and_two_pow_sub_one_eq_mod n 2

private theorem and_15 (n : ℕ) : 15 &&& n = n % 16 := by
  rw [Nat.and_comm]; exact Nat.and_two_pow_sub_one_eq_mod n 4

private theorem and_63 (n : ℕ) : 63 &&& n = n % 64 := by
  rw [Nat.and_comm]; exact Nat.and_two_pow_sub_one_eq_mod n 6

private theorem or_low {a b k : ℕ} (h : b < 2 ^ k) : (a <<< k) ||| b = a * 2 ^ k + b := by
  rw [← Nat.shiftLeft_add_eq_or_of_lt h, Nat.shiftLeft_eq]

private theorem toUInt8_mod (n : ℕ) : n.toUInt8 = (n % 256).toUInt8 := by
  apply UInt8.toNat_inj.mp
  simp

/-- The three bytes of a full group; the upper bits that a byte cannot hold are cut off. -/
private theorem group_bytes {A B C D : ℕ} (hB : B < 64) (hC : C < 64) (hD : D < 64) :
    ((A <<< 2) ||| (B >>> 4)).toUInt8 = (A * 4 + B / 16).toUInt8 ∧
    ((B <<< 4) ||| (C >>> 2)).toUInt8 = (B % 16 * 16 + C / 4).toUInt8 ∧
    ((C <<< 6) ||| D).toUInt8 = (C % 4 * 64 + D).toUInt8 := by
  simp only [Nat.shiftRight_eq_div_pow]
  rw [or_low (by omega : B / 2 ^ 4 < 2 ^ 2), or_low (by omega : C / 2 ^ 2 < 2 ^ 4),
    or_low (by omega : D < 2 ^ 6)]
  refine ⟨rfl, ?_, ?_⟩
  · rw [toUInt8_mod, toUInt8_mod (B % 16 * 16 + C / 4)]
    congr 1
    omega
  · rw [toUInt8_mod, toUInt8_mod (C % 4 * 64 + D)]
    congr 1
    omega

private theorem encodeLoop_stop {data : Bytes} {byteNo : ℕ} (n : ℕ) (result : Bytes)
    (h : data.length < byteNo + 3) :
    encodeLoop data n byteNo result = .ok (byteNo, result) := by
  cases n with
  | zero => rfl
  | succ n => rw [encodeLoop, if_neg (by omega)]

private theorem encodeLoop_spec (left rest result : Bytes) (n : ℕ) (hn : rest.length ≤ n) :
    ∃ full tail, rest = full ++ tail ∧ full.length % 3 = 0 ∧ tail.length < 3 ∧
      encodeLoop (left ++ rest) n left.length result =
        .ok (left.length + full.length, result ++ text full) := by
  induction n generalizing left rest result with
  | zero =>
    obtain rfl : rest = [] := List.length_eq_zero_iff.mp (by omega)
    exact ⟨[], [], rfl, rfl, by decide, by simp [encodeLoop, text, pack]⟩
  | succ n ih =>
    rcases rest with _ | ⟨a, _ | ⟨b, _ | ⟨c, rest⟩⟩⟩
    · exact ⟨[], [], rfl, rfl, by decide, by simp [encodeLoop_stop, text, pack]⟩
    · exact ⟨[], [a], rfl, rfl, by simp, by simp [encodeLoop_stop, text, pack]⟩
    · exact ⟨[], [a, b], rfl, rfl, by simp, by simp [encodeLoop_stop, text, pack]⟩
    · have ha := a.toNat_lt
      have hb := b.toNat_lt
      have hc := c.toNat_lt
      obtain ⟨full, tail, rfl, hfull, htail, hrun⟩ := ih (left ++ [a, b, c]) rest
        (result ++ [charOf (a.toNat / 4), charOf (a.toNat % 4 * 16 + b.toNat / 16),
          charOf (b.toNat % 16 * 4 + c.toNat / 64), charOf (c.toNat % 64)])
        (by simp only [List.length_cons] at hn; omega)
      refine ⟨a :: b :: c :: full, tail, by simp, by simp only [List.length_cons]; omega, htail, ?_⟩
      have h0 : load (left ++ a :: b :: c :: (full ++ tail)) left.length = .ok a :=
        load_of_get (by simp)
      have h1 : load (left ++ a :: b :: c :: (full ++ tail)) (left.length + 1) = .ok b :=
        load_of_get (by simp)
      have h2 : load (left ++ a :: b :: c :: (full ++ tail)) (left.length + 2) = .ok c :=
        load_of_get (by simp)
      have hbound : left.length + 3 ≤ (left ++ a :: b :: c :: (full ++ tail)).length := by
        simp only [List.length_append, List.length_cons]; omega
      simp only [List.append_assoc, List.length_append, List.length_cons, List.length_nil,
        List.cons_append, List.nil_append] at hrun
      simp only [encodeLoop, hbound, if_true, h0, h1, h2, bind, Except.bind, and_3, and_15, and_63,
        Nat.shiftRight_eq_div_pow, Nat.shiftLeft_eq]
      rw [load_b64 (by omega), load_b64 (by omega), load_b64 (by omega), load_b64 (by omega)]
      simp only [Nat.reducePow]
      rw [hrun]
      simp only [text, List.map_cons, pack, List.length_cons]
      congr 2
      omega

theorem text_length (x : Bytes) : (text x).length = (4 * x.length + 2) / 3 := by
  simp [text, pack_length]

theorem octets_length (s : Bytes) : (octets s).length = 3 * s.length / 4 := by
  simp [octets, unpack_length]

private theorem map_toNat_lt (x : Bytes) : ∀ v ∈ x.map UInt8.toNat, v < 256 := by
  intro v hv
  obtain ⟨c, _, rfl⟩ := List.mem_map.mp hv
  exact c.toNat_lt

private theorem map_valueOf_lt (s : Bytes) : ∀ v ∈ s.map valueOf, v < 64 := by
  intro v hv
  obtain ⟨c, _, rfl⟩ := List.mem_map.mp hv
  exact valueOf_lt c

theorem text_mem {x : Bytes} {c : UInt8} (h : c ∈ text x) : c ∈ b64 := by
  obtain ⟨v, hv, rfl⟩ := List.mem_map.mp h
  exact charOf_mem v (pack_lt (map_toNat_lt x) v hv)

private theorem text_append {x : Bytes} (y : Bytes) (h : x.length % 3 = 0) :
    text (x ++ y) = text x ++ text y := by
  simp [text, pack_append _ (by simpa using h : (x.map UInt8.toNat).length % 3 = 0)]

private theorem octets_append {s : Bytes} (t : Bytes) (h : s.length % 4 = 0) :
    octets (s ++ t) = octets s ++ octets t := by
  simp [octets, unpack_append _ (by simpa using h : (s.map valueOf).length % 4 = 0)]

private theorem encodePad_eq (n : ℕ) :
    encodePad n = if n % 3 = 1 then 2 else if n % 3 = 2 then 1 else 0 := by
  have hlt : n % 3 < 3 := Nat.mod_lt n (by decide)
  unfold encodePad
  generalize n % 3 = m at hlt ⊢
  interval_cases m <;> rfl

/-- The text and its NUL are written whatever the length; the reported length is that of the
text as long as the size computation does not wrap. -/
theorem base64url_encode_writes (x : Bytes) :
    ∃ len, base64url_encode x = .ok (text x ++ [0], len) ∧
      (4 * x.length < 2 ^ 64 → len = (text x).length) := by
  obtain ⟨full, tail, rfl, hfull, htail, hrun⟩ := encodeLoop_spec [] x [] x.length (Nat.le_refl _)
  simp only [List.nil_append, List.length_nil, Nat.zero_add] at hrun
  have hlen := text_length (full ++ tail)
  rw [text_append tail hfull] at hlen ⊢
  rcases tail with _ | ⟨a, _ | ⟨b, _ | ⟨c, rest⟩⟩⟩
  · have hpad : encodePad (full ++ []).length = 0 := by
      have hmod : (full ++ []).length % 3 = 0 := by simpa using hfull
      rw [encodePad_eq, hmod]
      rfl
    refine ⟨size_t (4 * ((full ++ []).length + 0)) / 3, ?_, ?_⟩
    · simp only [base64url_encode, hpad, hrun, bind, Except.bind, pure, Except.pure]
      simp [text, pack]
    · intro h
      rw [Nat.add_zero, size_t_of_lt h]
      simp only [List.length_append, List.length_nil] at hlen h ⊢
      omega
  · have ha := a.toNat_lt
    have hmod : (full ++ [a]).length % 3 = 1 := by simp; omega
    have hpad : encodePad (full ++ [a]).length = 2 := by
      rw [encodePad_eq, hmod]
      rfl
    have hget : load (full ++ [a]) full.length = .ok a := load_of_get (by simp)
    refine ⟨size_sub (size_t (4 * ((full ++ [a]).length + 2)) / 3) 2, ?_, ?_⟩
    · simp only [base64url_encode, hpad, hrun, hget, bind, Except.bind, pure, Except.pure,
        and_3, Nat.shiftRight_eq_div_pow, Nat.shiftLeft_eq, if_true]
      rw [load_b64 (by omega), load_b64 (by omega)]
      simp [text, pack]
    · intro h
      simp only [List.length_append, List.length_cons, List.length_nil] at hlen h ⊢
      rw [size_t_of_lt (by omega), size_sub, size_t]
      omega
  · have ha := a.toNat_lt
    have hb := b.toNat_lt
    have hmod : (full ++ [a, b]).length % 3 = 2 := by simp; omega
    have hpad : encodePad (full ++ [a, b]).length = 1 := by
      rw [encodePad_eq, hmod]
      rfl
    have hget : load (full ++ [a, b]) full.length = .ok a := load_of_get (by simp)
    have hget' : load (full ++ [a, b]) (full.length + 1) = .ok b := load_of_get (by simp)
    refine ⟨size_sub (size_t (4 * ((full ++ [a, b]).length + 1)) / 3) 1, ?_, ?_⟩
    · simp only [base64url_encode, hpad, hrun, hget, hget', bind, Except.bind, pure,
        Except.pure, and_3, and_15, Nat.shiftRight_eq_div_pow, Nat.shiftLeft_eq, if_true,
        Nat.reduceEqDiff, if_false]
      rw [load_b64 (by omega), load_b64 (by omega), load_b64 (by omega)]
      simp [text, pack]
    · intro h
      simp only [List.length_append, List.length_cons, List.length_nil] at hlen h ⊢
      rw [size_t_of_lt (by omega), size_sub, size_t]
      omega
  · simp only [List.length_cons] at htail
    omega

theorem base64url_encode_eq {x : Bytes} (h : 4 * x.length < 2 ^ 64) :
    base64url_encode x = .ok (text x ++ [0], (text x).length) := by
  obtain ⟨len, hrun, hlen⟩ := base64url_encode_writes x
  rw [hrun, hlen h]

private theorem decodeLoop_stop {data : Bytes} {pad data_len charNo : ℕ} (n : ℕ) (result : Bytes)
    (h : ¬ charNo + 4 + pad ≤ data_len) :
    decodeLoop data pad data_len n charNo result = .ok (charNo, result) := by
  cases n with
  | zero => rfl
  | succ n => rw [decodeLoop, if_neg h]

section Decoding

/-- The inflated bound admits exactly the groups of four that the input still holds. -/
def GuardExact (pad data_len len : ℕ) : Prop :=
  ∀ i, i % 4 = 0 → (i + 4 + pad ≤ data_len ↔ i + 4 ≤ len)

variable {pad data_len : ℕ}

private theorem decodeLoop_short {left tail : Bytes} (n : ℕ) (result : Bytes)
    (hguard : GuardExact pad data_len (left ++ tail).length) (hl : left.length % 4 = 0)
    (ht : tail.length < 4) :
    decodeLoop (left ++ tail) pad data_len n left.length result = .ok (left.length, result) := by
  apply decodeLoop_stop
  rw [hguard left.length hl, List.length_append]
  omega

private theorem decodeLoop_spec (left rest result : Bytes) (n : ℕ) (hn : rest.length ≤ n)
    (hguard : GuardExact pad data_len (left ++ rest).length) (hl : left.length % 4 = 0) :
    ∃ full tail, rest = full ++ tail ∧ full.length % 4 = 0 ∧ tail.length < 4 ∧
      decodeLoop (left ++ rest) pad data_len n left.length result =
        .ok (left.length + full.length, result ++ octets full) := by
  induction n generalizing left rest result with
  | zero =>
    obtain rfl : rest = [] := List.length_eq_zero_iff.mp (by omega)
    exact ⟨[], [], rfl, rfl, by decide, by simp [decodeLoop, octets, unpack]⟩
  | succ n ih =>
    rcases rest with _ | ⟨a, _ | ⟨b, _ | ⟨c, _ | ⟨d, rest⟩⟩⟩⟩
    · exact ⟨[], [], rfl, rfl, by decide, by
        simp only [decodeLoop_short _ _ hguard hl (by decide : ([] : Bytes).length < 4)]
        simp [octets, unpack]⟩
    · exact ⟨[], [a], rfl, rfl, by simp, by
        simp [decodeLoop_short _ _ hguard hl (by simp : [a].length < 4), octets, unpack]⟩
    · exact ⟨[], [a, b], rfl, rfl, by simp, by
        simp [decodeLoop_short _ _ hguard hl (by simp : [a, b].length < 4), octets, unpack]⟩
    · exact ⟨[], [a, b, c], rfl, rfl, by simp, by
        simp [decodeLoop_short _ _ hguard hl (by simp : [a, b, c].length < 4), octets, unpack]⟩
    · obtain ⟨e0, e1, e2⟩ := group_bytes (A := valueOf a) (valueOf_lt b) (valueOf_lt c)
        (valueOf_lt d)
      have hsplit : left ++ a :: b :: c :: d :: rest = (left ++ [a, b, c, d]) ++ rest := by simp
      have hpass : left.length + 4 + pad ≤ data_len := by
        rw [hguard left.length hl, List.length_append]
        simp only [List.length_cons]
        omega
      have h0 : sextet (left ++ a :: b :: c :: d :: rest) left.length = .ok (valueOf a) :=
        sextet_of_get (by simp)
      have h1 : sextet (left ++ a :: b :: c :: d :: rest) (left.length + 1) = .ok (valueOf b) :=
        sextet_of_get (by simp)
      have h2 : sextet (left ++ a :: b :: c :: d :: rest) (left.length + 2) = .ok (valueOf c) :=
        sextet_of_get (by simp)
      have h3 : sextet (left ++ a :: b :: c :: d :: rest) (left.length + 3) = .ok (valueOf d) :=
        sextet_of_get (by simp)
      obtain ⟨full, tail, rfl, hfull, htail, hrun⟩ := ih (left ++ [a, b, c, d]) rest
        (result ++ octets [a, b, c, d]) (by simp only [List.length_cons] at hn; omega)
        (by rw [← hsplit]; exact hguard) (by simp; omega)
      refine ⟨a :: b :: c :: d :: full, tail, by simp, by simp only [List.length_cons]; omega,
        htail, ?_⟩
      have hoct : octets (a :: b :: c :: d :: full) = octets [a, b, c, d] ++ octets full :=
        octets_append (s := [a, b, c, d]) full (by simp)
      simp only [decodeLoop, hpass, if_true, h0, h1, h2, h3, bind, Except.bind, e0, e1, e2]
      rw [hoct, ← List.append_assoc, show left.length + (a :: b :: c :: d :: full).length =
        (left ++ [a, b, c, d]).length + full.length by simp; omega, ← hrun, hsplit]
      simp [octets, unpack]

private theorem decodePad_eq {len : ℕ} (hlen : len + 2 < 2 ^ 64) :
    decodePad len = if len % 4 = 2 then (2, len + 2)
      else if len % 4 = 3 then (1, len + 1) else (0, len) := by
  unfold decodePad
  split_ifs with h2 h42 h43 h42 h43
  · rw [h2]
  · omega
  · omega
  · rw [size_t_of_lt (by omega)]
  · rw [size_t_of_lt (by omega)]
  · rfl

private theorem decodePad_guard {len : ℕ} (hlen : len + 2 < 2 ^ 64) :
    GuardExact (decodePad len).1 (decodePad len).2 len := by
  intro i hi
  rw [decodePad_eq hlen]
  split_ifs with h2 h3
  · constructor <;> intro <;> omega
  · constructor <;> intro <;> omega
  · simp

private theorem size_sub_of_le {x y : ℕ} (hy : y ≤ x) (hx : x < 2 ^ 64) : size_sub x y = x - y := by
  rw [size_sub, size_t, show x + 2 ^ 64 - y = (x - y) + 2 ^ 64 by omega, Nat.add_mod_right]
  exact Nat.mod_eq_of_lt (by omega)

/-- Three times a length of the form 4n + 2 or 4n + 3 does not wrap by being rounded up. -/
private theorem decodePad_result_len {len : ℕ} (hlen : 3 * len < 2 ^ 64) :
    size_sub (size_t (3 * (decodePad len).2) / 4) (decodePad len).1 = 3 * len / 4 := by
  rw [decodePad_eq (by omega)]
  split_ifs with h2 h3
  · rw [size_t_of_lt (by omega), size_sub_of_le (by omega) (by omega)]
    omega
  · rw [size_t_of_lt (by omega), size_sub_of_le (by omega) (by omega)]
    omega
  · rw [size_t_of_lt (by omega), size_sub_of_le (by omega) (by omega)]
    omega

theorem base64url_decode_writes {s : Bytes} (h1 : s.length ≠ 1) (h : s.length + 2 < 2 ^ 64) :
    base64url_decode s = .ok (octets s,
      some (size_sub (size_t (3 * (decodePad s.length).2) / 4) (decodePad s.length).1)) := by
  obtain ⟨full, tail, rfl, hfull, htail, hrun⟩ := decodeLoop_spec [] s [] s.length
    (Nat.le_refl _) (decodePad_guard h) rfl
  simp only [List.nil_append, List.length_nil, Nat.zero_add] at hrun
  have hmod : (full ++ tail).length % 4 = tail.length := by
    rw [List.length_append]
    omega
  have hpad : (decodePad (full ++ tail).length).1 =
      if tail.length = 2 then 2 else if tail.length = 3 then 1 else 0 := by
    rw [decodePad_eq h, hmod]
    split_ifs <;> rfl
  have hget : ∀ k c, tail[k]? = some c →
      sextet (full ++ tail) (full.length + k) = .ok (valueOf c) := by
    intro k c hk
    exact sextet_of_get (by rw [List.getElem?_append_right (by omega), Nat.add_sub_cancel_left, hk])
  unfold base64url_decode
  rw [if_neg h1]
  simp only [hrun, bind, Except.bind, pure, Except.pure]
  generalize size_sub (size_t (3 * (decodePad (full ++ tail).length).2) / 4)
    (decodePad (full ++ tail).length).1 = result_len
  rw [hpad, octets_append tail hfull]
  rcases tail with _ | ⟨a, _ | ⟨b, _ | ⟨c, _ | ⟨d, rest⟩⟩⟩⟩
  · simp [octets, unpack]
  · simp [octets, unpack]
  · have e0 := (group_bytes (A := valueOf a) (valueOf_lt b) (valueOf_lt b) (valueOf_lt b)).1
    have g0 := hget 0 a rfl
    have g1 := hget 1 b rfl
    simp only [Nat.add_zero] at g0
    simp only [List.length_cons, List.length_nil, Nat.zero_add, Nat.reduceAdd, if_true,
      Nat.reduceEqDiff, if_false, g0, g1, e0]
    rfl
  · obtain ⟨e0, e1, -⟩ := group_bytes (A := valueOf a) (valueOf_lt b) (valueOf_lt c) (valueOf_lt c)
    have g0 := hget 0 a rfl
    have g1 := hget 1 b rfl
    have g2 := hget 2 c rfl
    simp only [Nat.add_zero] at g0
    simp only [List.length_cons, List.length_nil, Nat.zero_add, Nat.reduceAdd, if_true,
      Nat.reduceEqDiff, if_false, g0, g1, g2, e0, e1]
    rfl
  · simp only [List.length_cons] at htail
    omega

/-- Up to where three times the length wraps, all that was written is reported. -/
theorem base64url_decode_reported {s : Bytes} (h1 : s.length ≠ 1) (h : 3 * s.length < 2 ^ 64) :
    base64url_decode s = .ok (octets s, some (octets s).length) := by
  rw [base64url_decode_writes h1 (by omega), decodePad_result_len h, octets_length]

/-- The bound is that of the code's own products: three times the inflated length. -/
theorem base64url_decode_eq {s : Bytes} (h1 : s.length ≠ 1)
    (h : 12 * ((s.length + 3) / 4) < 2 ^ 64) :
    base64url_decode s = .ok (octets s, some (octets s).length) :=
  base64url_decode_reported h1 (by omega)

end Decoding

theorem decode_encode {x : Bytes} (h : 4 * x.length < 2 ^ 64) :
    base64url_decode (text x) = .ok (x, some x.length) := by
  have hlen := text_length x
  rw [base64url_decode_eq (by omega) (by omega)]
  have hvals : (text x).map valueOf = pack (x.map UInt8.toNat) := by
    rw [text, List.map_map]
    refine (List.map_congr_left ?_).trans (List.map_id _)
    intro v hv
    exact valueOf_charOf v (pack_lt (map_toNat_lt x) v hv)
  have hoct : octets (text x) = x := by
    rw [octets, hvals, unpack_pack (map_toNat_lt x), List.map_map]
    refine (List.map_congr_left ?_).trans (List.map_id _)
    intro c _
    simp
  rw [hoct]

example : base64url_encode (bytes "fooba") = .ok (bytes "Zm9vYmE" ++ [0], 7) := by decide
example : base64url_decode (bytes "Zm9vYmE") = .ok (bytes "fooba", some 5) := by decide

/-- The bits of the last character that belong to no byte are zero. -/
def TrailingBitsZero (s : Bytes) : Prop := TailZero (s.map valueOf)

theorem text_octets {s : Bytes} (ha : ∀ c ∈ s, c ∈ b64) (hlen : s.length % 4 ≠ 1)
    (hz : TrailingBitsZero s) : text (octets s) = s := by
  have hvals : (octets s).map UInt8.toNat = unpack (s.map valueOf) := by
    rw [octets, List.map_map]
    refine (List.map_congr_left ?_).trans (List.map_id _)
    intro v hv
    have := unpack_lt (map_valueOf_lt s) v hv
    simp only [Function.comp_apply, Nat.toUInt8_eq, UInt8.toNat_ofNat', id_eq]
    exact Nat.mod_eq_of_lt this
  rw [text, hvals, pack_unpack (map_valueOf_lt s) (by simpa using hlen) hz, List.map_map]
  refine (List.map_congr_left ?_).trans (List.map_id _)
  intro c hc
  exact charOf_valueOf c (ha c hc)

/-- Encoding fills exactly the text and its NUL, decoding inverts it, texts in canonical form
are encodings, and decoding any other length than one stays inside its input and writes what it
reports. -/
theorem base64url_codec (x s : Bytes) (hx : 4 * x.length < 2 ^ 64) (hs : 4 * s.length < 2 ^ 64) :
    (∃ t, base64url_encode x = .ok (t ++ [0], t.length) ∧
      t.length = (4 * x.length + 2) / 3 ∧ (∀ c ∈ t, c ∈ b64) ∧
      (t ++ [0]).length ≤ 4 * x.length / 3 + 2 ∧
      base64url_decode t = .ok (x, some x.length)) ∧
    ((∀ c ∈ s, c ∈ b64) → s.length % 4 ≠ 1 → TrailingBitsZero s →
      ∃ y, base64url_decode s = .ok (y, some y.length) ∧
        base64url_encode y = .ok (s ++ [0], s.length)) ∧
    (s.length ≠ 1 → ∃ y, base64url_decode s = .ok (y, some y.length) ∧
      y.length ≤ 3 * s.length / 4) := by
  refine ⟨⟨text x, base64url_encode_eq hx, text_length x, fun c => text_mem, ?_,
    decode_encode hx⟩, ?_, ?_⟩
  · have hlen := text_length x
    simp only [List.length_append, List.length_singleton]
    omega
  · intro ha h1 hz
    have hlen := octets_length s
    have henc := base64url_encode_eq (x := octets s) (by omega)
    rw [text_octets ha h1 hz] at henc
    exact ⟨octets s, base64url_decode_eq (by omega) (by omega), henc⟩
  · intro h1
    exact ⟨octets s, base64url_decode_eq h1 (by omega), (octets_length s).le⟩

theorem base64url_codec_sample :
    (∃ t, base64url_encode (bytes "fooba") = .ok (t ++ [0], t.length) ∧
      base64url_decode t = .ok (bytes "fooba", some 5)) ∧
    (∃ y, base64url_decode (bytes "Zm8") = .ok (y, some y.length) ∧
      base64url_encode y = .ok (bytes "Zm8" ++ [0], 3)) ∧
    (∃ y, base64url_decode (bytes "Zm8") = .ok (y, some y.length) ∧ y.length ≤ 2) := by
  obtain ⟨⟨t, he, _, _, _, hd⟩, hback, hbound⟩ :=
    base64url_codec (bytes "fooba") (bytes "Zm8") (by decide) (by decide)
  have hall : (bytes "Zm8").all (· ∈ b64) = true := by decide
  have halpha : ∀ c ∈ bytes "Zm8", c ∈ b64 := fun c hc =>
    of_decide_eq_true (List.all_eq_true.mp hall c hc)
  refine ⟨⟨t, he, hd⟩, hback halpha (by decide) ⟨?_, ?_⟩, hbound (by decide)⟩
  · intro h
    exact absurd h (by decide)
  · intro _ v hv
    obtain rfl : 60 = v := Option.some.inj ((by decide : _ = some 60).symm.trans hv)
    decide

end Base64urlCodec
