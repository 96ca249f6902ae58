import Ayahesa.CMemory

/-! # Bounded copies

The copying functions of `compat.c` on memory whose bytes may not have been written yet.
A source is given as its characters; the NUL behind them is read as well. -/
namespace CompatCopy

open CMemory

/-- A region of memory; a byte that was never written has no value. -/
abbrev Block := List (Option UInt8)

def aya_malloc (n : ℕ) : Block := List.replicate n none

@[simp] theorem aya_malloc_length (n : ℕ) : (aya_malloc n).length = n := List.length_replicate

def read (d : Block) (i : ℕ) : C UInt8 :=
  match d[i]? with
  | some (some v) => .ok v
  | some none => .error .uninitialised
  | none => .error .outOfBounds

def write (d : Block) (i : ℕ) (v : UInt8) : C Block :=
  if i < d.length then .ok (d.set i (some v)) else .error .outOfBounds

/-- The C string at the start of a block. -/
def contents : Block → C Bytes
  | [] => .error .outOfBounds
  | none :: _ => .error .uninitialised
  | some v :: rest => if v = 0 then .ok [] else (contents rest).map (v :: ·)

def initialised : Block → C Bytes
  | [] => .ok []
  | none :: _ => .error .uninitialised
  | some c :: rest => (initialised rest).map (c :: ·)

/-- `strncpy` fills the rest of the field with NULs, and the last byte is cleared. -/
def aya_strncpy0 (dst : Block) (src : Bytes) (len : ℕ) : C Block := do
  let text := src.take len
  let field := text ++ List.replicate (len - text.length) 0
  if len ≤ dst.length then write (field.map some ++ dst.drop len) (len - 1) 0
  else .error .outOfBounds

def copy_loop (d : Block) (i last : ℕ) : Bytes → C Block
  | [] => write d i 0
  | c :: s => do
    let d ← write d i c
    if i = last then write d i 0 else copy_loop d (i + 1) last s

def aya_strlcpy (dst : Block) (src : Bytes) (len : ℕ) : C (Block × ℕ) :=
  if len = 0 then .ok (dst, 0)
  else (copy_loop dst 0 (len - 1) src).map fun d => (d, src.length)

def end_loop (d : Block) (i : ℕ) : ℕ → C ℕ
  | 0 => .ok i
  | n + 1 => do
    let v ← read d i
    if v = 0 then .ok i else end_loop d (i + 1) n

/-- `n` counts down to the one byte that is left for the NUL. -/
def append_loop (d : Block) (i n : ℕ) : Bytes → C (Block × ℕ)
  | [] => .ok (d, i)
  | c :: s =>
    if n ≠ 1 then do
      let d ← write d i c
      append_loop d (i + 1) (n - 1) s
    else append_loop d i n s

def aya_strlcat (dst : Block) (src : Bytes) (len : ℕ) : C (Block × ℕ) :=
  if len = 0 then .ok (dst, 0)
  else do
    let dlen ← end_loop dst 0 len
    if len - dlen = 0 then return (dst, dlen + src.length)
    let (d, i) ← append_loop dst dlen (len - dlen) src
    let d ← write d i 0
    return (d, dlen + src.length)

theorem initialised_map (text : Bytes) : initialised (text.map some) = .ok text := by
  induction text with
  | nil => rfl
  | cons c text ih =>
    rw [List.map_cons, initialised, ih]
    rfl

theorem write_at (front : Block) (x : Option UInt8) (behind : Block) (v : UInt8) :
    write (front ++ x :: behind) front.length v = .ok (front ++ some v :: behind) := by
  rw [write, if_pos (by simp), List.set_append_right _ _ (Nat.le_refl _), Nat.sub_self,
    List.set_cons_zero]

def terminated (text : Bytes) : Block := text.map some ++ [some 0]

theorem contents_terminated {text : Bytes} (h : 0 ∉ text) (behind : Block) :
    contents (terminated text ++ behind) = .ok text := by
  induction text with
  | nil => rfl
  | cons c text ih =>
    have hc : c ≠ 0 := fun h0 => h (h0 ▸ List.mem_cons_self)
    have ih := ih fun h0 => h (List.mem_cons_of_mem c h0)
    rw [terminated, List.append_assoc] at ih ⊢
    rw [List.map_cons, List.cons_append, contents, if_neg hc, ih]
    rfl

theorem copy_loop_end (front : Block) (x : Option UInt8) (behind : Block) (last : ℕ) :
    copy_loop (front ++ x :: behind) front.length last [] = .ok (front ++ some 0 :: behind) :=
  write_at front x behind 0

theorem copy_loop_last (front : Block) (x : Option UInt8) (behind : Block) (c : UInt8)
    (s : Bytes) :
    copy_loop (front ++ x :: behind) front.length front.length (c :: s) =
      .ok (front ++ some 0 :: behind) := by
  simp [copy_loop, write_at, bind, Except.bind]

theorem copy_loop_next (front : Block) (x : Option UInt8) (behind : Block) (c : UInt8)
    (s : Bytes) {last : ℕ} (h : front.length ≠ last) :
    copy_loop (front ++ x :: behind) front.length last (c :: s) =
      copy_loop (front ++ [some c] ++ behind) (front ++ [some c]).length last s := by
  simp [copy_loop, write_at, bind, Except.bind, h]

/-- A cut source ends in a NUL, a short one in NULs up to the end of the field. -/
theorem aya_strncpy0_eq (dst : Block) (src : Bytes) {len : ℕ} (hpos : 0 < len)
    (hlen : len ≤ dst.length) :
    ∃ fill, aya_strncpy0 dst src len =
      .ok (terminated (src.take (len - 1)) ++ fill ++ dst.drop len) := by
  obtain ⟨k, rfl⟩ : ∃ k, len = k + 1 := ⟨len - 1, by omega⟩
  by_cases hk : src.length ≤ k
  · refine ⟨List.replicate (k - src.length) (some 0), ?_⟩
    have hwrite := write_at ((src ++ List.replicate (k - src.length) 0).map some) (some 0)
      (dst.drop (k + 1)) 0
    have hfield : (src ++ List.replicate (k + 1 - src.length) 0).map some ++ dst.drop (k + 1) =
        (src ++ List.replicate (k - src.length) 0).map some ++ some 0 :: dst.drop (k + 1) := by
      rw [Nat.succ_sub hk, List.replicate_succ']
      simp
    have hat : ((src ++ List.replicate (k - src.length) 0).map some).length = k := by
      simp
      omega
    rw [hat] at hwrite
    rw [aya_strncpy0, List.take_of_length_le (by omega), if_pos hlen, hfield, Nat.add_sub_cancel,
      hwrite, List.take_of_length_le hk]
    have hshift : List.replicate (k - src.length) (some (0 : UInt8)) ++ [some 0] =
        [some 0] ++ List.replicate (k - src.length) (some 0) := by
      rw [← List.replicate_succ', List.replicate_succ]
      rfl
    rw [← List.singleton_append, ← List.append_assoc, List.map_append, List.map_replicate,
      List.append_assoc (src.map some), hshift, terminated]
    simp only [List.append_assoc]
  · refine ⟨[], ?_⟩
    have hlast : src.take (k + 1) = src.take k ++ [src[k]] := List.take_succ_eq_append_getElem _
    have hat : ((src.take k).map some).length = k := by
      rw [List.length_map, List.length_take]
      omega
    have hwrite := write_at ((src.take k).map some) (some src[k]) (dst.drop (k + 1)) 0
    rw [hat] at hwrite
    have hfull : k + 1 - (src.take (k + 1)).length = 0 := by
      rw [List.length_take]
      omega
    rw [aya_strncpy0, if_pos hlen, hfull, hlast, Nat.add_sub_cancel, terminated,
      List.replicate_zero, List.append_nil, List.append_nil, List.map_append, List.append_assoc,
      List.append_assoc]
    exact hwrite

theorem copy_loop_eq (front : Block) (src : Bytes) (behind : Block) (k : ℕ)
    (hk : k < behind.length) :
    copy_loop (front ++ behind) front.length (front.length + k) src =
      .ok (front ++ (terminated (src.take k) ++ behind.drop ((src.take k).length + 1))) := by
  induction src generalizing front behind k with
  | nil =>
    obtain ⟨x, behind, rfl⟩ := List.exists_cons_of_length_pos (Nat.zero_lt_of_lt hk)
    rw [copy_loop_end, List.take_nil]
    rfl
  | cons c src ih =>
    obtain ⟨x, behind, rfl⟩ := List.exists_cons_of_length_pos (Nat.zero_lt_of_lt hk)
    cases k with
    | zero =>
      rw [Nat.add_zero, copy_loop_last, List.take_zero]
      rfl
    | succ k =>
      have hlast : front.length + (k + 1) = (front ++ [some c]).length + k := by
        simp
        omega
      rw [copy_loop_next _ _ _ _ _ (by omega), hlast, ih _ _ _ (by simpa using hk)]
      simp [terminated]

theorem aya_strlcpy_eq (dst : Block) (src : Bytes) {len : ℕ} (hpos : 0 < len)
    (hlen : len ≤ dst.length) :
    aya_strlcpy dst src len =
      .ok (terminated (src.take (len - 1)) ++ dst.drop ((src.take (len - 1)).length + 1),
        src.length) := by
  have hcopy := copy_loop_eq [] src dst (len - 1) (by omega)
  rw [List.nil_append, List.length_nil, Nat.zero_add] at hcopy
  rw [aya_strlcpy, if_neg (by omega), hcopy]
  rfl

theorem end_loop_found {text : Bytes} (h : 0 ∉ text) (front behind : Block) {n : ℕ}
    (hn : text.length < n) :
    end_loop (front ++ (terminated text ++ behind)) front.length n =
      .ok (front.length + text.length) := by
  induction text generalizing front n with
  | nil =>
    obtain ⟨n, rfl⟩ : ∃ m, n = m + 1 := ⟨n - 1, by simp at hn; omega⟩
    simp [end_loop, read, terminated, bind, Except.bind]
  | cons c text ih =>
    obtain ⟨n, rfl⟩ : ∃ m, n = m + 1 := ⟨n - 1, by simp at hn; omega⟩
    have hc : c ≠ 0 := fun h0 => h (h0 ▸ List.mem_cons_self)
    have ih := ih (fun h0 => h (List.mem_cons_of_mem c h0)) (front ++ [some c])
      (n := n) (by simpa using hn)
    have hread : read (front ++ (terminated (c :: text) ++ behind)) front.length = .ok c := by
      simp [read, terminated]
    have hsplit : front ++ (terminated (c :: text) ++ behind) =
        front ++ [some c] ++ (terminated text ++ behind) := by simp [terminated]
    have hlen : (front ++ [some c]).length = front.length + 1 := by simp
    rw [end_loop, hread]
    change (if c = 0 then _ else _) = _
    rw [if_neg hc, hsplit, ← hlen, ih, hlen, List.length_cons]
    congr 1
    omega

/-- What is appended ends at the end of the source or in front of the last free byte. -/
theorem append_loop_eq (front : Block) (src : Bytes) (behind : Block) (k : ℕ)
    (hk : k < behind.length) :
    append_loop (front ++ behind) front.length (k + 1) src =
      .ok (front ++ ((src.take k).map some ++ behind.drop (src.take k).length),
        front.length + (src.take k).length) := by
  induction src generalizing front behind k with
  | nil => simp [append_loop]
  | cons c src ih =>
    obtain ⟨x, behind, rfl⟩ := List.exists_cons_of_length_pos (Nat.zero_lt_of_lt hk)
    cases k with
    | zero =>
      have ih := ih front (x :: behind) 0 hk
      rw [append_loop, if_neg (by simp), ih]
      simp
    | succ k =>
      have ih := ih (front ++ [some c]) behind k (by simpa using hk)
      have hlen : (front ++ [some c]).length = front.length + 1 := by simp
      rw [hlen, List.append_assoc] at ih
      rw [append_loop, if_pos (by omega), write_at]
      change append_loop (front ++ ([some c] ++ behind)) (front.length + 1) (k + 1) src = _
      rw [ih]
      simp
      omega

theorem aya_strlcat_eq {text : Bytes} (h : 0 ∉ text) (src : Bytes) (behind : Block) {len : ℕ}
    (hlen : text.length < len) (hroom : len ≤ text.length + 1 + behind.length) :
    aya_strlcat (terminated text ++ behind) src len =
      .ok (terminated (text ++ src.take (len - 1 - text.length)) ++
          behind.drop (src.take (len - 1 - text.length)).length,
        text.length + src.length) := by
  have hend := end_loop_found h [] behind hlen
  rw [List.nil_append, List.length_nil, Nat.zero_add] at hend
  obtain ⟨k, rfl⟩ : ∃ k, len = text.length + (k + 1) := ⟨len - text.length - 1, by omega⟩
  have hk : k < (some 0 :: behind).length := by
    rw [List.length_cons]
    omega
  have hloop := append_loop_eq (text.map some) src (some 0 :: behind) k hk
  have hadd : text.length + (k + 1) - text.length = k + 1 := by omega
  have hlast : text.length + (k + 1) - 1 - text.length = k := by omega
  have hsplit : terminated text ++ behind = text.map some ++ some 0 :: behind := by
    simp [terminated]
  -- one byte behind the appended text is still inside the field and takes the NUL
  have hle : (src.take k).length < (some 0 :: behind).length :=
    Nat.lt_of_le_of_lt (List.length_take_le k src) hk
  have hdrop := List.drop_eq_getElem_cons hle
  rw [List.drop_succ_cons] at hdrop
  have hwrite := write_at (text.map some ++ (src.take k).map some)
    ((some 0 :: behind)[(src.take k).length]) (behind.drop (src.take k).length) 0
  rw [← hdrop, List.append_assoc, List.length_append, List.length_map, List.length_map] at hwrite
  rw [List.length_map] at hloop
  rw [aya_strlcat, if_neg (by omega), hend]
  simp only [bind, Except.bind, hadd, hlast]
  rw [if_neg (by omega), hsplit, hloop]
  simp only [hwrite]
  simp [terminated, pure, Except.pure]

end CompatCopy
