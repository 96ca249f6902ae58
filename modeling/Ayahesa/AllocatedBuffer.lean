import Ayahesa.KoreBuffer

/-! # Buffers with all their memory

A splice allocates room for the old text and the new one together and writes no more than it
needs. Searches whose length was computed for another start read what is left of the block, which
holds whatever the allocator found there. -/
namespace AllocatedBuffer

open CMemory CompatCopy KoreApi KoreBuffer ByteSearch BufferSplicing

/-- `struct kore_buf`: all bytes of its memory, written or not. `heap` tells what the blocks hold
that are allocated from now on. -/
structure AllocBuf where
  data : Bytes
  offset : ℕ
  heap : ℕ → ℕ → UInt8

/-- A new buffer that holds a text and nothing else. -/
def kore_buf_alloc (heap : ℕ → ℕ → UInt8) (text : Bytes) : AllocBuf := ⟨text, text.length, heap⟩

def read_block (junk : ℕ → UInt8) (block : Block) : Bytes :=
  block.mapIdx fun i byte => byte.getD (junk i)

/-- A negative difference is a huge `size_t`; then the last copy does not fit. -/
def AllocBuf.replace_string (b : AllocBuf) (pos_start : ℕ) (pos_length : ℤ) (dst : Bytes) :
    C AllocBuf :=
  if pos_length < 0 then .error .outOfBounds
  else do
    let buf ← BufferSplicing.aya_buf_replace_string ⟨b.data.map some, b.offset, b.data.length⟩
      pos_start pos_length.toNat (some dst) dst.length
    return ⟨read_block (b.heap 0) buf.data, buf.offset, fun k => b.heap (k + 1)⟩

instance : Buffer AllocBuf where
  region b := b.data
  used b := b.data.take b.offset
  offset b := b.offset
  written b data := { b with data := data }
  replace_string := AllocBuf.replace_string
  buf_of b text := kore_buf_alloc b.heap text

instance : LawfulBuffer AllocBuf where
  region_written _ _ := rfl
  offset_written _ _ _ := rfl

theorem kore_buf_alloc_holds (heap : ℕ → ℕ → UInt8) (text : Bytes) :
    Holds (kore_buf_alloc heap text) text [] := ⟨(List.append_nil _).symm, rfl⟩

theorem read_block_text (junk : ℕ → UInt8) (text : Bytes) (n : ℕ) :
    ∃ slack, slack.length = n ∧
      read_block junk (text.map some ++ aya_malloc n) = text ++ slack := by
  refine ⟨(aya_malloc n).mapIdx fun i byte => byte.getD (junk (i + text.length)), ?_, ?_⟩
  · rw [List.length_mapIdx, aya_malloc_length]
  · rw [read_block, List.mapIdx_append, List.length_map]
    congr 1
    apply List.ext_getElem
    · simp
    · intro i h₁ h₂
      simp

section Splice

variable {b : AllocBuf} {left mid right slack : Bytes}

/-- The cut leaves as many bytes behind the text as it takes out of it. -/
theorem replace_string_holds (dst : Bytes) (h : Holds b (left ++ (mid ++ right)) slack) :
    ∃ b' junk, Buffer.replace_string b left.length mid.length dst = .ok b' ∧
      Holds b' (left ++ (dst ++ right)) junk ∧ junk.length = mid.length := by
  have hdata : b.data = (left ++ (mid ++ right)) ++ slack := h.region
  have hoffset : b.offset = (left ++ (mid ++ right)).length := h.offset
  have hvalid : Valid ⟨b.data.map some, b.offset, b.data.length⟩ := by
    refine ⟨List.length_map some, ?_⟩
    dsimp only
    rw [hdata, hoffset]
    simp only [List.length_append]
    omega
  have hused : Buf.used ⟨b.data.map some, b.offset, b.data.length⟩ =
      left.map some ++ (mid.map some ++ right.map some) := by
    rw [Buf.used, hdata, hoffset, ← List.map_take, List.take_left]
    simp only [List.map_append]
  have hcut := splice_at hvalid hused (show Replacement (some dst) dst.length from rfl)
  simp only [List.length_map, Option.getD_some] at hcut
  obtain ⟨junk, hjunk, hread⟩ := read_block_text (b.heap 0) (left ++ (dst ++ right)) mid.length
  simp only [List.map_append, List.append_assoc] at hread
  have hlen : ¬ ((mid.length : ℤ) < 0) := by omega
  have hrun : Buffer.replace_string b left.length mid.length dst =
      .ok ⟨left ++ (dst ++ (right ++ junk)), left.length + dst.length + right.length,
        fun k => b.heap (k + 1)⟩ := by
    simp only [Buffer.replace_string, AllocBuf.replace_string, hlen, if_false, Int.toNat_natCast,
      BufferSplicing.aya_buf_replace_string, hcut, hread, bind, Except.bind, pure, Except.pure]
  refine ⟨_, junk, hrun, ⟨?_, ?_⟩, hjunk⟩
  · change left ++ (dst ++ (right ++ junk)) = _
    simp only [List.append_assoc]
  · change left.length + dst.length + right.length = _
    simp only [List.length_append]
    omega

theorem replace_first_string_holds {src : Bytes} (K : Kore) (dst : Bytes) (hne : src ≠ [])
    (h : Holds b (left ++ (src ++ right)) slack)
    (hfind : find src (left ++ (src ++ right)) = some left.length) :
    ∃ b' junk, KoreBuffer.aya_buf_replace_first_string K b src dst = .ok b' ∧
      Holds b' (left ++ (dst ++ right)) junk ∧ junk.length = src.length := by
  have hk := h.mem_find K hne
  obtain ⟨b', junk, hcut, hholds, hlen⟩ := replace_string_holds dst h
  refine ⟨b', junk, ?_, hholds, hlen⟩
  rw [hfind] at hk
  simp only [KoreBuffer.aya_buf_replace_first_string, hk, hcut, bind, Except.bind]

end Splice

end AllocatedBuffer
