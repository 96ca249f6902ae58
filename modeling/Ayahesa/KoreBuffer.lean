import Ayahesa.BufferSplicing

/-! # Splicing in Kore buffers

The callers of the two replacement functions compute the length of a span by pointer subtraction,
so it is an integer and may be negative. What they read of a buffer is its region, which may end
with the used bytes or go on behind them. -/
namespace KoreBuffer

open CMemory CompatCopy KoreApi ByteSearch
open BufferSplicing (Buf Replacement buf_of buf_of_used buf_of_valid splice_at splice_in_range)

/-- The used bytes of a `struct kore_buf`; `offset` is their number. -/
structure KoreBuf where
  data : Bytes
  length : ℕ
  deriving DecidableEq, Repr

def KoreBuf.offset (b : KoreBuf) : ℕ := b.data.length

def kore_buf_of (text : Bytes) : KoreBuf := ⟨text, text.length⟩

@[simp] theorem kore_buf_of_data (text : Bytes) : (kore_buf_of text).data = text := rfl

/-- What is written of the buffer behind a splice. A negative difference is a huge `size_t`; then
the last copy does not fit. -/
def aya_buf_replace_string (b : KoreBuf) (pos_start : ℕ) (pos_length : ℤ) (dst : Bytes) :
    C KoreBuf :=
  if pos_length < 0 then .error .outOfBounds
  else do
    let buf ← BufferSplicing.aya_buf_replace_string (buf_of b.data) pos_start pos_length.toNat
      (some dst) dst.length
    let data ← initialised buf.used
    return { data := data, length := buf.length }

/-- What the callers do with a buffer. Its pointers reach `region`; only the bytes in front of
`offset` were written. -/
class Buffer (β : Type) where
  region : β → Bytes
  used : β → Bytes
  offset : β → ℕ
  /-- Some bytes of the region are overwritten. -/
  written : β → Bytes → β
  replace_string : β → ℕ → ℤ → Bytes → C β
  /-- Another buffer, which holds a text and nothing else. -/
  buf_of : β → Bytes → β

/-- Here a pointer reaches the used bytes and nothing behind them. -/
instance : Buffer KoreBuf where
  region b := b.data
  used b := b.data
  offset b := b.offset
  written b data := { b with data := data }
  replace_string := aya_buf_replace_string
  buf_of _ text := kore_buf_of text

def aya_buf_replace_first_string {β : Type} [Buffer β] (K : Kore) (b : β) (src dst : Bytes) :
    C β := do
  match ← kore_mem_find K (Buffer.region b) 0 (Buffer.offset b) src with
  | none => return b
  | some pos_start => Buffer.replace_string b pos_start src.length dst

/-- Overwriting bytes changes nothing but these bytes. -/
class LawfulBuffer (β : Type) [Buffer β] : Prop where
  region_written : ∀ (b : β) (data : Bytes), Buffer.region (Buffer.written b data) = data
  offset_written : ∀ (b : β) (data : Bytes), data.length = (Buffer.region b).length →
    Buffer.offset (Buffer.written b data) = Buffer.offset b

instance : LawfulBuffer KoreBuf where
  region_written _ _ := rfl
  offset_written _ _ h := h

/-- The buffer holds a text; what stands behind it in the region was not written. -/
structure Holds {β : Type} [Buffer β] (b : β) (text slack : Bytes) : Prop where
  region : Buffer.region b = text ++ slack
  offset : Buffer.offset b = text.length

theorem KoreBuf.holds (b : KoreBuf) : Holds b b.data [] := ⟨(List.append_nil _).symm, rfl⟩

theorem Holds.mem_find {β : Type} [Buffer β] {b : β} {text slack needle : Bytes}
    (h : Holds b text slack) (K : Kore) (hne : needle ≠ []) :
    kore_mem_find K (Buffer.region b) 0 (Buffer.offset b) needle = .ok (find needle text) := by
  rw [h.region, h.offset, kore_mem_find, K.mem_find_eq hne, List.drop_zero, List.take_left]
  cases find needle text with
  | some i => simp
  | none => simp

/-- A span inside the buffer is cut out and the text put in its place. -/
theorem replace_string_at {b : KoreBuf} {p : ℕ} {l : ℤ} {left mid right : Bytes} (dst : Bytes)
    (h : b.data = left ++ (mid ++ right)) (hp : left.length = p) (hl : (mid.length : ℤ) = l) :
    aya_buf_replace_string b p l dst = .ok ⟨left ++ (dst ++ right), b.offset + dst.length⟩ := by
  subst hp hl
  have hused : (buf_of b.data).used = left.map some ++ (mid.map some ++ right.map some) := by
    rw [buf_of_used, h, List.map_append, List.map_append]
  have hcut := splice_at (buf_of_valid b.data) hused
    (show Replacement (some dst) dst.length from rfl)
  simp only [List.length_map, Option.getD_some] at hcut
  have hsplit : left.map some ++ (dst.map some ++ (right.map some ++ aya_malloc mid.length)) =
      (left ++ (dst ++ right)).map some ++ aya_malloc mid.length := by
    simp only [List.map_append, List.append_assoc]
  have hlen : left.length + dst.length + right.length =
      ((left ++ (dst ++ right)).map some).length := by
    simp only [List.length_map, List.length_append, Nat.add_assoc]
  have hneg : ¬ ((mid.length : ℤ) < 0) := Int.not_lt.mpr (Int.natCast_nonneg _)
  simp only [aya_buf_replace_string, hneg, if_false, Int.toNat_natCast,
    BufferSplicing.aya_buf_replace_string, hcut, Buf.used, hsplit, hlen, List.take_left,
    initialised_map, bind, Except.bind, pure, Except.pure]
  rfl

theorem replace_string_ok {b b' : KoreBuf} {p : ℕ} {l : ℤ} {dst : Bytes}
    (h : aya_buf_replace_string b p l dst = .ok b') :
    0 ≤ l ∧ p + l ≤ b.offset ∧
      ∃ left mid right, b.data = left ++ (mid ++ right) ∧ left.length = p ∧
        (mid.length : ℤ) = l ∧ b'.data = left ++ (dst ++ right) := by
  have hnonneg : 0 ≤ l := by
    by_contra hneg
    rw [aya_buf_replace_string, if_pos (Int.not_le.mp hneg)] at h
    cases h
  have hrange : p + l.toNat ≤ b.offset := by
    rw [aya_buf_replace_string, if_neg (Int.not_lt.mpr hnonneg)] at h
    obtain ⟨buf, hcut, -⟩ := bind_ok h
    exact splice_in_range hcut
  have hoffset : b.offset = b.data.length := rfl
  have hsplit : b.data = b.data.take p ++
      ((b.data.drop p).take l.toNat ++ (b.data.drop p).drop l.toNat) := by
    rw [List.take_append_drop, List.take_append_drop]
  have hp : (b.data.take p).length = p := by
    rw [List.length_take]
    omega
  have hl : (((b.data.drop p).take l.toNat).length : ℤ) = l := by
    simp only [List.length_take, List.length_drop]
    omega
  refine ⟨hnonneg, by omega, _, _, _, hsplit, hp, hl, ?_⟩
  rw [replace_string_at dst hsplit hp hl] at h
  rw [← Except.ok.inj h]

theorem replace_string_negative {b : KoreBuf} {p : ℕ} {l : ℤ} {dst : Bytes} (hl : l < 0) :
    aya_buf_replace_string b p l dst = .error .outOfBounds := if_pos hl

theorem replace_first_string_free {K : Kore} {b : KoreBuf} {src : Bytes} (dst : Bytes)
    (hne : src ≠ []) (h : Free src b.data) : aya_buf_replace_first_string K b src dst = .ok b := by
  have hfind := kore_mem_find_whole K b.data hne
  rw [(find_eq_none_iff hne).mpr h] at hfind
  simp only [aya_buf_replace_first_string, Buffer.region, Buffer.offset, KoreBuf.offset, hfind,
    bind, Except.bind, pure, Except.pure]

theorem replace_first_string_found {K : Kore} {b : KoreBuf} {src left right : Bytes} (dst : Bytes)
    (hne : src ≠ []) (h : b.data = left ++ (src ++ right))
    (hfind : find src b.data = some left.length) :
    aya_buf_replace_first_string K b src dst =
      .ok ⟨left ++ (dst ++ right), b.offset + dst.length⟩ := by
  have hk := kore_mem_find_whole K b.data hne
  rw [hfind] at hk
  have hcut := replace_string_at dst h rfl rfl
  simp only [aya_buf_replace_first_string, Buffer.region, Buffer.offset, KoreBuf.offset,
    Buffer.replace_string, hk, hcut, bind, Except.bind]

/-- The first occurrence is replaced, whatever the buffer holds; this never leaves the buffer. -/
theorem replace_first_string_cases (K : Kore) (b : KoreBuf) {src : Bytes} (dst : Bytes)
    (hne : src ≠ []) :
    (Free src b.data ∧ aya_buf_replace_first_string K b src dst = .ok b) ∨
    ∃ left right, b.data = left ++ (src ++ right) ∧ find src b.data = some left.length ∧
      aya_buf_replace_first_string K b src dst =
        .ok ⟨left ++ (dst ++ right), b.offset + dst.length⟩ := by
  cases hf : find src b.data with
  | none =>
    have hfree := (find_eq_none_iff hne).mp hf
    exact Or.inl ⟨hfree, replace_first_string_free dst hne hfree⟩
  | some i =>
    obtain ⟨left, right, hsplit, rfl, _⟩ := find_split hne hf
    rw [List.append_assoc] at hsplit
    exact Or.inr ⟨left, right, hsplit, rfl, replace_first_string_found dst hne hsplit hf⟩

def first_replaced (src dst s : Bytes) : Bytes :=
  match find src s with
  | none => s
  | some i => s.take i ++ (dst ++ s.drop (i + src.length))

theorem first_replaced_free {src s : Bytes} (dst : Bytes) (hne : src ≠ []) (h : Free src s) :
    first_replaced src dst s = s := by
  rw [first_replaced, (find_eq_none_iff hne).mpr h]

theorem first_replaced_found {src left right : Bytes} (dst : Bytes)
    (h : find src (left ++ (src ++ right)) = some left.length) :
    first_replaced src dst (left ++ (src ++ right)) = left ++ (dst ++ right) := by
  simp only [first_replaced, h]
  rw [List.take_left, ← List.drop_drop, List.drop_left, List.drop_left]

theorem replace_first_string_eq (K : Kore) (b : KoreBuf) {src : Bytes} (dst : Bytes)
    (hne : src ≠ []) :
    ∃ n, aya_buf_replace_first_string K b src dst = .ok ⟨first_replaced src dst b.data, n⟩ := by
  rcases replace_first_string_cases K b dst hne with
    ⟨hfree, hrun⟩ | ⟨left, right, hsplit, hfind, hrun⟩
  · exact ⟨b.length, by rw [hrun, first_replaced_free dst hne hfree]⟩
  · refine ⟨b.offset + dst.length, ?_⟩
    rw [hsplit] at hfind
    rw [hrun, hsplit, first_replaced_found dst hfind]

/-- Two replacements agree only where there is nothing to replace. -/
theorem first_replaced_inj {src dst dst' s : Bytes} (hne : src ≠ []) :
    first_replaced src dst s = first_replaced src dst' s ↔ Free src s ∨ dst = dst' := by
  cases hf : find src s with
  | none =>
    have hfree := (find_eq_none_iff hne).mp hf
    rw [first_replaced_free dst hne hfree, first_replaced_free dst' hne hfree]
    exact ⟨fun _ => Or.inl hfree, fun _ => rfl⟩
  | some i =>
    obtain ⟨left, right, hsplit, rfl, _⟩ := find_split hne hf
    rw [List.append_assoc] at hsplit
    subst hsplit
    rw [first_replaced_found dst hf, first_replaced_found dst' hf]
    constructor
    · intro h
      exact Or.inr (List.append_cancel_right (List.append_cancel_left h))
    · rintro (hfree | rfl)
      · rw [(find_eq_none_iff hne).mpr hfree] at hf
        cases hf
      · rfl

end KoreBuffer
