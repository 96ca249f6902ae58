import Mathlib.Algebra.GroupWithZero.Nat
import Ayahesa.StoredFiles

/-! # Uploads that fail

A read error ends the loop and is told apart from the end; a write that is cut short is not
noticed. What is removed after an error is the file of the name that the client gave. -/
namespace FailedUploads

open CMemory FileStream AyaFile StoredFiles

def blocks_read (reads : List (Option Bytes)) : List Bytes :=
  (reads.takeWhile fun read => read ≠ none ∧ read ≠ some []).reduceOption

def ReadError (reads : List (Option Bytes)) : Prop := none ∈ reads.takeWhile (· ≠ some [])

instance (reads : List (Option Bytes)) : Decidable (ReadError reads) :=
  inferInstanceAs (Decidable (_ ∈ _))

/-- A file that holds these blocks as a whole; there is no header without a block. -/
def stored_blocks (random : Bytes) (blocks : List Bytes) : List Bytes :=
  if blocks = [] then [] else header random :: blocks

/-- What a caller may rely on: the result tells whether the upload is on the disk, nothing is left
of a failed one, and no other file is gone. -/
structure Reported (random : Bytes) (file : HttpFile) (filename : Bytes) (disk : Disk)
    (result : ℤ) (disk' : Disk) : Prop where
  stored : result = 0 →
    disk'.files filename = some (stored_blocks random (blocks_read file.reads)).flatten
  failed : result ≠ 0 → result < 0 ∧ disk'.files filename = none
  others : ∀ path, path ≠ filename → disk.files path ≠ none → disk'.files path ≠ none

/-- The sizes of the writes: the header and the blocks, if there are any. -/
def write_sizes (blocks : List Bytes) : List ℕ :=
  if blocks = [] then [] else sizeof_cryptfile :: blocks.map List.length

/-- No read fails and every write gets through; a file that cannot be opened is not there. -/
def Undisturbed (file : HttpFile) (filename : Bytes) (disk : Disk) : Prop :=
  if disk.writable filename then
    ¬ReadError file.reads ∧
      (∀ p ∈ disk.limits.zip (write_sizes (blocks_read file.reads)), p.2 ≤ p.1) ∧
      (write_sizes (blocks_read file.reads)).sum ≤ MAX_FILE
  else disk.files filename = none

/-! ## The loop -/

theorem blocks_read_cons {buf : Bytes} (hbuf : buf ≠ []) (reads : List (Option Bytes)) :
    blocks_read (some buf :: reads) = buf :: blocks_read reads := by
  rw [blocks_read, List.takeWhile_cons_of_pos (by simp [hbuf])]
  rfl

theorem readError_cons {buf : Bytes} (hbuf : buf ≠ []) (reads : List (Option Bytes)) :
    ReadError (some buf :: reads) ↔ ReadError reads := by
  rw [ReadError, List.takeWhile_cons_of_pos (by simp [hbuf]), ReadError]
  simp

theorem store_loop_begun (random : Bytes) (fp : FILE) {reads : List (Option Bytes)}
    (hfit : ∀ buf, some buf ∈ reads → buf.length ≤ BUFSIZ) :
    store_loop random ⟨fp, true⟩ reads = .ok (decide (ReadError reads),
      ⟨{ fp with stream := fp.stream.puts (blocks_read reads) }, true⟩) := by
  induction reads generalizing fp with
  | nil => rfl
  | cons read reads ih =>
    cases read with
    | none => rfl
    | some buf =>
      by_cases hbuf : buf = []
      · subst hbuf
        rfl
      · have hpos := List.length_pos_of_ne_nil hbuf
        have hsize : buf.length < 2 ^ 64 :=
          Nat.lt_of_le_of_lt (hfit buf List.mem_cons_self) (by decide)
        have hcount : fp.stream.accepted buf.length / buf.length < 2 ^ 63 := by
          have hle := Nat.div_le_div_right (c := buf.length) (accepted_le fp.stream buf.length)
          rw [Nat.div_self hpos] at hle
          omega
        have hnonneg : ¬ssize_t (fp.stream.accepted buf.length / buf.length) < 0 := by
          rw [ssize_t, if_pos hcount]
          exact Int.not_lt.mpr (Int.natCast_nonneg _)
        rw [store_loop, if_neg (by omega), afwrite_block random fp hbuf hsize]
        simp only [bind, Except.bind]
        rw [if_neg hnonneg, ih _ fun b hb => hfit b (List.mem_cons_of_mem _ hb),
          blocks_read_cons hbuf]
        simp only [readError_cons hbuf]
        rfl

theorem store_loop_fresh (random : Bytes) {fp : FILE} {reads : List (Option Bytes)}
    (hpos : fp.stream.pos = 0) (hfit : ∀ buf, some buf ∈ reads → buf.length ≤ BUFSIZ) :
    ∃ has_header, store_loop random ⟨fp, false⟩ reads = .ok (decide (ReadError reads),
      ⟨{ fp with stream := fp.stream.puts (stored_blocks random (blocks_read reads)) },
        has_header⟩) := by
  cases reads with
  | nil => exact ⟨false, rfl⟩
  | cons read reads =>
    cases read with
    | none => exact ⟨false, rfl⟩
    | some buf =>
      by_cases hbuf : buf = []
      · subst hbuf
        exact ⟨false, rfl⟩
      · refine ⟨true, ?_⟩
        have hstart : fp.stream.seek 0 = fp.stream := by rw [← hpos]; rfl
        have hlen : ¬buf.length = 0 := fun h0 => hbuf (List.eq_nil_of_length_eq_zero h0)
        have hbegun := store_loop_begun random
          { fp with stream := fp.stream.put (header random) } hfit
        rw [blocks_read_cons hbuf] at hbegun ⊢
        rw [stored_blocks, if_neg (List.cons_ne_nil _ _)]
        rw [store_loop, if_neg hlen] at hbegun ⊢
        rw [afwrite_first, hstart]
        exact hbegun

/-! ## The call -/

def stored_stream (random : Bytes) (file : HttpFile) (disk : Disk) : Stream UInt8 :=
  (⟨[], 0, MAX_FILE, disk.limits, disk.short⟩ : Stream UInt8).puts
    (stored_blocks random (blocks_read file.reads))

def closed_disk (random : Bytes) (file : HttpFile) (filename : Bytes) (disk : Disk) : Disk :=
  fclose ⟨filename, stored_stream random file disk⟩ disk

theorem closed_self (random : Bytes) (file : HttpFile) (filename : Bytes) (disk : Disk) :
    (closed_disk random file filename disk).files filename =
      some (stored_stream random file disk).content := Function.update_self _ _ _

theorem closed_other (random : Bytes) (file : HttpFile) (disk : Disk) {path filename : Bytes}
    (h : path ≠ filename) :
    (closed_disk random file filename disk).files path = disk.files path :=
  Function.update_of_ne h _ _

theorem store_file_open (random : Bytes) (file : HttpFile) {filename : Bytes} {disk : Disk}
    (hwritable : disk.writable filename = true) :
    store_file random file filename disk = .ok (if ReadError file.reads then
      let (result, disk') := unlink file.filename (closed_disk random file filename disk)
      (if result < 0 then -1 else 0, disk')
    else (0, closed_disk random file filename disk)) := by
  obtain ⟨has_header, hloop⟩ := @store_loop_fresh random
    ⟨filename, [], 0, MAX_FILE, disk.limits, disk.short⟩ file.reads rfl file.reads_fit
  rw [store_file]
  simp only [afopen, fopen, hwritable, if_true, Option.map_some, hloop, bind, Except.bind]
  by_cases herror : ReadError file.reads
  · simp only [herror, decide_true, if_true]
    change (if (unlink file.filename (closed_disk random file filename disk)).1 < 0 then _ else _) =
      _
    split <;> rfl
  · simp only [herror, decide_false, if_false]
    rfl

theorem store_file_closed (random : Bytes) (file : HttpFile) {filename : Bytes} {disk : Disk}
    (hwritable : disk.writable filename = false) :
    store_file random file filename disk = .ok (-1, disk) := by
  rw [store_file]
  simp only [afopen, fopen, hwritable, Bool.false_eq_true, if_false, Option.map_none]

theorem stored_stream_iff (random : Bytes) (file : HttpFile) (disk : Disk) :
    (stored_stream random file disk).content =
        (stored_blocks random (blocks_read file.reads)).flatten ↔
      (∀ p ∈ disk.limits.zip (write_sizes (blocks_read file.reads)), p.2 ≤ p.1) ∧
        (write_sizes (blocks_read file.reads)).sum ≤ MAX_FILE := by
  have hend : (⟨[], 0, MAX_FILE, disk.limits, disk.short⟩ : Stream UInt8).AtEnd :=
    ⟨rfl, Nat.zero_le _⟩
  have hsizes : (stored_blocks random (blocks_read file.reads)).map List.length =
      write_sizes (blocks_read file.reads) := by
    unfold stored_blocks write_sizes
    split
    · rfl
    · rw [List.map_cons, header_length]
  have hwhole := @puts_whole_iff _ _ (stored_blocks random (blocks_read file.reads)) hend
  rw [Stream.Takes, hsizes, List.length_flatten, hsizes, List.nil_append, List.length_nil,
    Nat.zero_add] at hwhole
  exact hwhole

/-- After a read error the call breaks its word: it reports a success, or leaves the new file. -/
theorem not_reported {random filename : Bytes} {file : HttpFile} {disk : Disk} :
    ¬Reported random file filename disk
      (if (unlink file.filename (closed_disk random file filename disk)).1 < 0 then -1 else 0)
      (unlink file.filename (closed_disk random file filename disk)).2 := by
  intro h
  by_cases hfound : ((closed_disk random file filename disk).files file.filename).isSome
  · rw [unlink, if_pos hfound] at h
    by_cases hname : file.filename = filename
    · have hgone := h.stored rfl
      rw [hname] at hgone
      simp at hgone
    · rw [closed_other random file disk hname] at hfound
      refine h.others file.filename hname ?_ (Function.update_self _ _ _)
      exact fun hnone => by simp [hnone] at hfound
  · rw [unlink, if_neg hfound] at h
    have hleft := (h.failed (by simp)).2
    rw [closed_self] at hleft
    cases hleft

/-- A call does what its result says if and only if nothing went wrong while it ran. -/
theorem store_file_reported_iff (random : Bytes) (file : HttpFile) (filename : Bytes)
    (disk : Disk) :
    ∃ result disk', store_file random file filename disk = .ok (result, disk') ∧
      (Reported random file filename disk result disk' ↔ Undisturbed file filename disk) := by
  unfold Undisturbed
  cases hwritable : disk.writable filename with
  | false =>
    refine ⟨-1, disk, store_file_closed random file hwritable, ?_⟩
    simp only [Bool.false_eq_true, if_false]
    constructor
    · exact fun h => (h.failed (by decide)).2
    · intro habsent
      exact ⟨fun h => absurd h (by decide), fun _ => ⟨by decide, habsent⟩, fun _ _ h => h⟩
  | true =>
    have hopen := store_file_open random file hwritable
    simp only [if_true]
    by_cases herror : ReadError file.reads
    · rw [if_pos herror] at hopen
      exact ⟨_, _, hopen, iff_of_false not_reported fun h => h.1 herror⟩
    · rw [if_neg herror] at hopen
      refine ⟨_, _, hopen, ?_⟩
      rw [and_iff_right herror, ← stored_stream_iff random file disk]
      constructor
      · intro h
        have hstored := h.stored rfl
        rw [closed_self] at hstored
        exact Option.some.inj hstored
      · intro hcontent
        refine ⟨fun _ => ?_, fun h => absurd rfl h, fun path hpath hfile => ?_⟩
        · rw [closed_self, hcontent]
        · rwa [closed_other random file disk hpath]

def failing : HttpFile where
  filename := bytes "a.txt"
  reads := [none]
  reads_fit := by simp

def precious_disk : Disk where
  files path := if path = bytes "a.txt" then some (bytes "precious") else none
  writable _ := true
  limits := []
  short := false

/-- The other file is removed, and the call reports a success. -/
theorem upload_removes_other :
    ¬∀ (random : Bytes) (file : HttpFile) (filename : Bytes) (disk disk' : Disk) (result : ℤ),
      store_file random file filename disk = .ok (result, disk') →
      Reported random file filename disk result disk' := by
  intro h
  have hcall := @store_file_open [] failing (bytes "s/app/1-x.txt") precious_disk rfl
  rw [if_pos (by decide)] at hcall
  exact not_reported (h _ _ _ _ _ _ hcall)

end FailedUploads
