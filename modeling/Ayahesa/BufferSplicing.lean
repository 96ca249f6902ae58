import Ayahesa.CompatCopy
import Ayahesa.EventRuns
import Ayahesa.KoreApi

/-! # Splicing in the memory of a buffer

A splice copies three pieces into memory that nothing was written to yet. What it leaves is a
buffer of at most its own size, so splices can follow one another. -/
namespace BufferSplicing

open CMemory CompatCopy KoreApi ByteSearch EventRuns

/-- `struct kore_buf`: its memory, the bytes of it that are used, and its size. -/
structure Buf where
  data : Block
  offset : ℕ
  length : ℕ
  deriving DecidableEq, Repr

def Buf.used (b : Buf) : Block := b.data.take b.offset

/-- The size is that of the memory, and no more than that is used. -/
structure Valid (b : Buf) : Prop where
  memory : b.data.length = b.length
  within : b.offset ≤ b.length

/-- `len` bytes from index `start` of `src` to index `pos` of `dst`. -/
def memcpy (dst : Block) (pos : ℤ) (src : Block) (start len : ℤ) : C Block :=
  if 0 ≤ pos ∧ 0 ≤ start ∧ 0 ≤ len ∧ pos + len ≤ dst.length ∧ start + len ≤ src.length then
    .ok (dst.take pos.toNat ++ ((src.drop start.toNat).take len.toNat ++
      dst.drop (pos.toNat + len.toNat)))
  else .error .outOfBounds

/-- The copy of the replacement, which is left out for NULL. -/
def memcpy_given (tmp : Block) (pos : ℤ) (dst : Option Bytes) (len : ℕ) : C Block :=
  match dst with
  | none => .ok tmp
  | some dst => memcpy tmp pos (dst.map some) 0 len

/-- What both functions do with a range of the buffer. Pointers are indices into its memory; text
and buffer exist side by side, so the sum of their sizes does not wrap. -/
def splice (b : Buf) (pos_start pos_length : ℕ) (dst : Option Bytes) (len : ℕ) : C Buf := do
  let new_len := b.offset + len
  let pos_end : ℤ := pos_start + pos_length
  let pre_len : ℤ := pos_start
  let post_len : ℤ := b.offset - pos_end
  let tmp := aya_malloc new_len
  let tmp ← memcpy tmp 0 b.data 0 pre_len
  let tmp ← memcpy_given tmp pre_len dst len
  let tmp ← memcpy tmp (pre_len + len) b.data pos_end post_len
  return ⟨tmp, (pre_len + len + post_len).toNat, new_len⟩

def aya_buf_replace_string (b : Buf) (pos_start pos_length : ℕ) (dst : Option Bytes) (len : ℕ) :
    C Buf := splice b pos_start pos_length dst len

def aya_buf_replace_first_string (K : Kore) (b : Buf) (src : Bytes) (dst : Option Bytes)
    (len : ℕ) : C Buf := do
  let pos_length := src.length
  let text ← initialised b.used
  match K.mem_find text src with
  | none => return b
  | some pos_start => splice b pos_start pos_length dst len

/-- A replacement of `len` bytes, or NULL and none. -/
def Replacement (dst : Option Bytes) (len : ℕ) : Prop := (dst.getD []).length = len

instance (dst : Option Bytes) (len : ℕ) : Decidable (Replacement dst len) :=
  inferInstanceAs (Decidable (_ = _))

/-! ## One splice -/

theorem memcpy_part {dst src : Block} {pos start len : ℤ} (front old behind left mid right : Block)
    (hdst : dst = front ++ (old ++ behind)) (hsrc : src = left ++ (mid ++ right))
    (hold : old.length = mid.length) (hpos : pos = front.length) (hstart : start = left.length)
    (hlen : len = mid.length) :
    memcpy dst pos src start len = .ok (front ++ (mid ++ behind)) := by
  subst hdst hsrc hpos hstart hlen
  have hbounds : (front.length : ℤ) + mid.length ≤ (front ++ (old ++ behind)).length ∧
      (left.length : ℤ) + mid.length ≤ (left ++ (mid ++ right)).length := by
    simp only [List.length_append]
    omega
  rw [memcpy, if_pos ⟨by omega, by omega, by omega, hbounds⟩]
  simp only [Int.toNat_natCast, List.take_left, List.drop_left]
  rw [← List.append_assoc front old, ← hold, ← List.length_append, List.drop_left]

theorem malloc_append (n m : ℕ) : aya_malloc (n + m) = aya_malloc n ++ aya_malloc m :=
  List.replicate_add n m none

section Splice

variable {b : Buf} {left mid right : Block} {dst : Option Bytes} {len : ℕ}

theorem copy_given (hdst : Replacement dst len) (front behind : Block) :
    memcpy_given (front ++ (aya_malloc len ++ behind)) front.length dst len =
      .ok (front ++ ((dst.getD []).map some ++ behind)) := by
  cases dst with
  | none =>
    obtain rfl : 0 = len := hdst
    rfl
  | some text =>
    have hlen : (text.map some).length = len := (List.length_map some).trans hdst
    exact memcpy_part front (aya_malloc len) behind [] (text.map some) [] rfl
      (List.append_nil _).symm ((aya_malloc_length len).trans hlen.symm) rfl rfl
      (congrArg Nat.cast hlen.symm)

/-- The bytes in front of the range, the replacement and the bytes behind the range. -/
theorem splice_at (hvalid : Valid b) (hused : b.used = left ++ (mid ++ right))
    (hdst : Replacement dst len) :
    splice b left.length mid.length dst len =
      .ok ⟨left ++ ((dst.getD []).map some ++ (right ++ aya_malloc mid.length)),
        left.length + len + right.length, b.offset + len⟩ := by
  have hoffset : b.offset = left.length + (mid.length + right.length) := by
    have hlen := congrArg List.length hused
    rw [Buf.used, List.length_take, hvalid.memory, Nat.min_eq_left hvalid.within] at hlen
    rw [hlen, List.length_append, List.length_append]
  have hdata : b.data = left ++ (mid ++ (right ++ b.data.drop b.offset)) := by
    have hsplit := List.take_append_drop b.offset b.data
    rw [← Buf.used, hused] at hsplit
    rw [← List.append_assoc mid, ← List.append_assoc left]
    exact hsplit.symm
  have hroom : b.offset + len = left.length + (len + (right.length + mid.length)) := by omega
  have hpre := @memcpy_part (aya_malloc (b.offset + len)) b.data 0 0 left.length []
    (aya_malloc left.length) (aya_malloc (len + (right.length + mid.length))) [] left
    (mid ++ (right ++ b.data.drop b.offset)) (by rw [hroom, malloc_append, List.nil_append])
    hdata (aya_malloc_length _) rfl rfl rfl
  have hpost := @memcpy_part (left ++ ((dst.getD []).map some ++ (aya_malloc right.length ++
    aya_malloc mid.length))) b.data (left.length + len) (left.length + mid.length)
    (b.offset - (left.length + mid.length)) (left ++ (dst.getD []).map some)
    (aya_malloc right.length) (aya_malloc mid.length) (left ++ mid) right (b.data.drop b.offset)
    (by rw [List.append_assoc]) (by rw [List.append_assoc]; exact hdata) (aya_malloc_length _)
    (by rw [List.length_append, List.length_map, hdst]; omega)
    (by rw [List.length_append]; omega) (by omega)
  have hcopy := copy_given hdst left (aya_malloc right.length ++ aya_malloc mid.length)
  rw [malloc_append len, malloc_append right.length] at hpre
  rw [List.nil_append] at hpre
  have hend : ((left.length : ℤ) + len + (b.offset - (left.length + mid.length))).toNat =
      left.length + len + right.length := by omega
  simp only [splice, hpre, hcopy, bind, Except.bind]
  rw [List.append_assoc] at hpost
  simp only [hpost, hend]
  rfl

theorem splice_in_range {b' : Buf} {pos_start pos_length : ℕ}
    (h : splice b pos_start pos_length dst len = .ok b') : pos_start + pos_length ≤ b.offset := by
  obtain ⟨_, -, h⟩ := bind_ok h
  obtain ⟨_, -, h⟩ := bind_ok h
  obtain ⟨_, hlast, -⟩ := bind_ok h
  unfold memcpy at hlast
  split at hlast
  · next hbounds =>
    have hpost := hbounds.2.2.1
    omega
  · cases hlast

/-- What a splice of a range leaves. -/
structure Spliced (b : Buf) (pos_start pos_length : ℕ) (dst : Option Bytes) (len : ℕ) (b' : Buf) :
    Prop where
  valid : Valid b'
  used : b'.used = b.used.take pos_start ++
    ((dst.getD []).map some ++ b.used.drop (pos_start + pos_length))
  offset : b'.offset = b.offset - pos_length + len
  length : b'.length = b.offset + len

theorem splice_spliced {pos_start pos_length : ℕ} (hvalid : Valid b)
    (hrange : pos_start + pos_length ≤ b.offset) (hdst : Replacement dst len) :
    ∃ b', splice b pos_start pos_length dst len = .ok b' ∧
      Spliced b pos_start pos_length dst len b' := by
  have hused : b.used.length = b.offset := by
    rw [Buf.used, List.length_take, hvalid.memory, Nat.min_eq_left hvalid.within]
  have hleft : (b.used.take pos_start).length = pos_start := by
    rw [List.length_take]
    omega
  have hmid : ((b.used.drop pos_start).take pos_length).length = pos_length := by
    rw [List.length_take, List.length_drop]
    omega
  have hright : (b.used.drop (pos_start + pos_length)).length =
      b.offset - (pos_start + pos_length) := by
    rw [List.length_drop, hused]
  have hsplit : b.used = b.used.take pos_start ++
      ((b.used.drop pos_start).take pos_length ++ b.used.drop (pos_start + pos_length)) := by
    rw [← List.drop_drop, List.take_append_drop, List.take_append_drop]
  have hdstlen : ((dst.getD []).map some).length = len := (List.length_map some).trans hdst
  have hrun := splice_at hvalid hsplit hdst
  rw [hleft, hmid, hright] at hrun
  refine ⟨_, hrun, ⟨?_, ?_⟩, ?_, ?_, rfl⟩
  · simp only [List.length_append, hleft, hdstlen, hright, aya_malloc_length]
    omega
  · dsimp only
    omega
  · rw [Buf.used]
    dsimp only
    rw [← List.append_assoc _ _ (aya_malloc pos_length), ← List.append_assoc _ _
      (aya_malloc pos_length), List.take_left']
    rw [List.length_append, List.length_append, hleft, hdstlen, hright, Nat.add_assoc]
  · dsimp only
    omega

end Splice

/-! ## The first occurrence of a pattern -/

def Leftmost (src text : Bytes) (i : ℕ) : Prop :=
  Occurs src text i ∧ ∀ j < i, ¬Occurs src text j

section First

variable {K : Kore} {b : Buf} {text src : Bytes} {dst : Option Bytes} {len : ℕ}

theorem replace_first_free (hused : b.used = text.map some) (hsrc : src ≠ [])
    (hfree : Free src text) : aya_buf_replace_first_string K b src dst len = .ok b := by
  have hfind : K.mem_find text src = find src text := K.mem_find_eq hsrc
  rw [(find_eq_none_iff hsrc).mpr hfree] at hfind
  simp only [aya_buf_replace_first_string, hused, initialised_map, hfind, bind, Except.bind]
  rfl

theorem replace_first_found {i : ℕ} (hused : b.used = text.map some) (hsrc : src ≠ [])
    (hfirst : Leftmost src text i) :
    aya_buf_replace_first_string K b src dst len = splice b i src.length dst len := by
  have hfind := (K.mem_find_leftmost text src i hsrc).mpr hfirst
  simp only [aya_buf_replace_first_string, hused, initialised_map, hfind, bind, Except.bind]

theorem leftmost_in_range {i : ℕ} (hvalid : Valid b) (hused : b.used = text.map some)
    (hsrc : src ≠ []) (hfirst : Leftmost src text i) : i + src.length ≤ b.offset := by
  have hbound := hfirst.1.bound hsrc
  have hlen := congrArg List.length hused
  rw [Buf.used, List.length_take, hvalid.memory, Nat.min_eq_left hvalid.within,
    List.length_map] at hlen
  rwa [hlen]

/-- Either there is nothing to replace or the first occurrence is a range of the buffer. -/
theorem replace_first_spliced (hvalid : Valid b) (hused : b.used = text.map some) (hsrc : src ≠ [])
    (hdst : Replacement dst len) :
    (Free src text → aya_buf_replace_first_string K b src dst len = .ok b) ∧
    ∀ i, Leftmost src text i → ∃ b', aya_buf_replace_first_string K b src dst len = .ok b' ∧
      Spliced b i src.length dst len b' := by
  refine ⟨replace_first_free hused hsrc, fun i hfirst => ?_⟩
  rw [replace_first_found hused hsrc hfirst]
  exact splice_spliced hvalid (leftmost_in_range hvalid hused hsrc hfirst) hdst

theorem free_or_leftmost (hsrc : src ≠ []) (text : Bytes) :
    Free src text ∨ ∃ i, Leftmost src text i := by
  cases hfind : find src text with
  | none => exact Or.inl ((find_eq_none_iff hsrc).mp hfind)
  | some i => exact Or.inr ⟨i, (find_eq_some_iff hsrc).mp hfind⟩

end First

/-! ## Splices one after the other -/

inductive Splice where
  | range (pos_start pos_length : ℕ) (dst : Option Bytes) (len : ℕ)
  | first (src : Bytes) (dst : Option Bytes) (len : ℕ)
  deriving DecidableEq, Repr

def step (K : Kore) (b : Buf) : Splice → Option Buf
  | .range pos_start pos_length dst len =>
    (aya_buf_replace_string b pos_start pos_length dst len).toOption
  | .first src dst len => (aya_buf_replace_first_string K b src dst len).toOption

/-- A range inside the used part of the buffer, or a pattern that is not empty. -/
def InRange (b : Buf) : Splice → Prop
  | .range pos_start pos_length dst len =>
    pos_start + pos_length ≤ b.offset ∧ Replacement dst len
  | .first src dst len => src ≠ [] ∧ Replacement dst len

def Ready (b : Buf) : Prop := Valid b ∧ ∃ text : Bytes, b.used = text.map some

/-- Every splice is in range of the buffer that the splices before it left. -/
def AllInRange (K : Kore) (b : Buf) (splices : List Splice) : Prop :=
  Throughout (fun past s => ∀ b', run (step K) b past = some b' → InRange b' s) splices

theorem Spliced.ready {b b' : Buf} {pos_start pos_length len : ℕ} {dst : Option Bytes}
    (hready : Ready b) (h : Spliced b pos_start pos_length dst len b') : Ready b' := by
  obtain ⟨-, text, htext⟩ := hready
  refine ⟨h.valid, text.take pos_start ++ (dst.getD [] ++ text.drop (pos_start + pos_length)), ?_⟩
  rw [h.used, htext, List.map_append, List.map_append, List.map_take, List.map_drop]

theorem step_ready (K : Kore) {b : Buf} {s : Splice} (hready : Ready b) (hs : InRange b s) :
    ∃ b', step K b s = some b' ∧ Ready b' := by
  obtain ⟨hvalid, text, htext⟩ := hready
  cases s with
  | range pos_start pos_length dst len =>
    obtain ⟨b', hrun, hspliced⟩ := splice_spliced hvalid hs.1 hs.2
    exact ⟨b', by rw [step, aya_buf_replace_string, hrun]; rfl,
      hspliced.ready ⟨hvalid, text, htext⟩⟩
  | first src dst len =>
    obtain ⟨hfree, hfirst⟩ := replace_first_spliced (K := K) hvalid htext hs.1 hs.2
    rcases free_or_leftmost hs.1 text with hnone | ⟨i, hi⟩
    · exact ⟨b, by rw [step, hfree hnone]; rfl, hvalid, text, htext⟩
    · obtain ⟨b', hrun, hspliced⟩ := hfirst i hi
      exact ⟨b', by rw [step, hrun]; rfl, hspliced.ready ⟨hvalid, text, htext⟩⟩

theorem run_ready (K : Kore) {b : Buf} {splices : List Splice} (hready : Ready b)
    (h : AllInRange K b splices) : ∃ b', run (step K) b splices = some b' ∧ Ready b' := by
  have hstep : ∀ past s t, run (step K) b past = some t ∧ Ready t →
      (∀ b', run (step K) b past = some b' → InRange b' s) →
      ∃ u, step K t s = some u ∧ run (step K) b (past ++ [s]) = some u ∧ Ready u := by
    rintro past s t ⟨ht, hready⟩ hs
    obtain ⟨u, hu, hnext⟩ := step_ready K hready (hs t ht)
    exact ⟨u, hu, run_step ht hu, hnext⟩
  obtain ⟨b', hrun, -, hready⟩ := run_progress
    (fun past t => run (step K) b past = some t ∧ Ready t) _ ⟨rfl, hready⟩ hstep h
  exact ⟨b', hrun, hready⟩

/-- Every splice of a range of a buffer yields what stands in front of it, the replacement and what
stands behind it, in memory of the new size; so does the first occurrence of a pattern, and a
buffer without one is left alone. After any sequence of splices no more than the size is used. -/
theorem buffer_splicing (K : Kore) :
    (∀ b pos_start pos_length dst len, Valid b → pos_start + pos_length ≤ b.offset →
      Replacement dst len → ∃ b',
        aya_buf_replace_string b pos_start pos_length dst len = .ok b' ∧
        Spliced b pos_start pos_length dst len b') ∧
    (∀ b text src dst len, Valid b → b.used = text.map some → src ≠ [] → Replacement dst len →
      (Free src text → aya_buf_replace_first_string K b src dst len = .ok b) ∧
      ∀ i, Leftmost src text i → ∃ b', aya_buf_replace_first_string K b src dst len = .ok b' ∧
        Spliced b i src.length dst len b') ∧
    ∀ b splices, Ready b → AllInRange K b splices →
      ∃ b', run (step K) b splices = some b' ∧ b'.offset ≤ b'.length := by
  refine ⟨fun b _ _ _ _ => splice_spliced, fun b text _ _ _ => replace_first_spliced, ?_⟩
  intro b splices hready hrange
  obtain ⟨b', hrun, hvalid, -⟩ := run_ready K hready hrange
  exact ⟨b', hrun, hvalid.within⟩

def buf_of (text : Bytes) : Buf := ⟨text.map some, text.length, text.length⟩

theorem buf_of_valid (text : Bytes) : Valid (buf_of text) := ⟨List.length_map some, Nat.le_refl _⟩

theorem buf_of_used (text : Bytes) : (buf_of text).used = text.map some := by
  rw [Buf.used, buf_of, ← List.map_take, List.take_length]

theorem buffer_splicing_twice :
    (∃ b', aya_buf_replace_string (buf_of (bytes "abc")) 1 1 (some (bytes "xyz")) 3 = .ok b' ∧
      Spliced (buf_of (bytes "abc")) 1 1 (some (bytes "xyz")) 3 b') ∧
    (∃ b', aya_buf_replace_first_string reference (buf_of (bytes "abcbc")) (bytes "bc") none 0 =
      .ok b' ∧ Spliced (buf_of (bytes "abcbc")) 1 2 none 0 b') ∧
    ∃ b', run (step reference) (buf_of (bytes "abcbc"))
      [.range 0 1 (some (bytes "xyz")) 3, .first (bytes "bc") none 0] = some b' ∧
      b'.offset ≤ b'.length := by
  obtain ⟨hrange, hfirst, hrun⟩ := buffer_splicing reference
  have hall : AllInRange reference (buf_of (bytes "abcbc"))
      [.range 0 1 (some (bytes "xyz")) 3, .first (bytes "bc") none 0] := by
    intro past s rest hsplit
    cases past with
    | nil =>
      obtain ⟨rfl, -⟩ := List.cons.inj hsplit
      intro b' hb'
      obtain rfl := Option.some.inj hb'
      exact ⟨by decide, rfl⟩
    | cons t past =>
      obtain ⟨-, hrest⟩ := List.cons.inj hsplit
      cases past with
      | nil =>
        obtain ⟨rfl, -⟩ := List.cons.inj hrest
        exact fun _ _ => ⟨by decide, rfl⟩
      | cons u past => simp at hrest
  have hleft : Leftmost (bytes "bc") (bytes "abcbc") 1 :=
    (find_eq_some_iff (by decide)).mp (by decide)
  exact ⟨hrange _ 1 1 _ 3 (buf_of_valid _) (by decide) rfl,
    (hfirst _ _ (bytes "bc") none 0 (buf_of_valid _) (buf_of_used _) (by decide) rfl).2 1 hleft,
    hrun _ _ ⟨buf_of_valid _, _, buf_of_used _⟩ hall⟩

end BufferSplicing
