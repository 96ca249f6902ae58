import Ayahesa.AyaFile

/-! # Uploads on the disk, and how they are read back -/
namespace StoredFiles

open CMemory FileStream AyaFile

def BUFSIZ : ℕ := 8192

/-- An uploaded file: the name the client gave it and the results of the next reads, `none` for
an error and nothing for the end. A read gives at most as much as there is room for. -/
structure HttpFile where
  filename : Bytes
  reads : List (Option Bytes)
  reads_fit : ∀ buf, some buf ∈ reads → buf.length ≤ BUFSIZ

/-- A block of cleared memory; there is none that is larger than half the address space. -/
def aya_calloc (n : ℕ) : Proc Bytes := if n < 2 ^ 63 then .ok (calloc n) else .error (.abort [])

/-- A `size_t` that is assigned to a `ssize_t`. -/
def ssize_t (n : ℕ) : ℤ := if n < 2 ^ 63 then n else n - 2 ^ 64

def fetch_file (disk : Disk) (filename : Bytes) : Proc (Option (Bytes × ℕ)) :=
  match afopen disk filename .rb with
  | none => .ok none
  | some fp => do
    let (file_size, fp) := afsize fp
    let content ← aya_calloc file_size
    let (_, content, _) ← lift (afread content file_size 1 fp)
    return some (content, file_size)

/-- The loop over the reads; the flag is `error`. -/
def store_loop (random : Bytes) (fp : AYAFILE) : List (Option Bytes) → C (Bool × AYAFILE)
  | [] => .ok (false, fp)
  | none :: _ => .ok (true, fp)
  | some buf :: rest =>
    if buf.length = 0 then .ok (false, fp)
    else do
      let (written, fp) ← afwrite random buf buf.length 1 fp
      if ssize_t written < 0 then return (true, fp)
      else store_loop random fp rest

/-- After an error the file of the client's own name is removed. -/
def store_file (random : Bytes) (file : HttpFile) (filename : Bytes) (disk : Disk) :
    C (ℤ × Disk) :=
  match afopen disk filename .wb with
  | none => .ok (-1, disk)
  | some fp => do
    let (error, fp) ← store_loop random fp file.reads
    let disk := afclose fp disk
    if error then
      let (result, disk) := unlink file.filename disk
      if result < 0 then return (-1, disk) else return (0, disk)
    else return (0, disk)

section Run

variable {random data : Bytes} {afp afp' : AYAFILE} {error : Bool}

theorem store_loop_kept {reads : List (Option Bytes)}
    (h : store_loop random afp reads = .ok (error, afp')) : Kept afp.fp afp'.fp := by
  induction reads generalizing afp with
  | nil =>
    obtain ⟨-, rfl⟩ := Prod.mk.inj (Except.ok.inj h)
    exact Kept.refl afp.fp
  | cons read reads ih =>
    cases read with
    | none =>
      obtain ⟨-, rfl⟩ := Prod.mk.inj (Except.ok.inj h)
      exact Kept.refl afp.fp
    | some buf =>
      rw [store_loop] at h
      split at h
      · obtain ⟨-, rfl⟩ := Prod.mk.inj (Except.ok.inj h)
        exact Kept.refl afp.fp
      · obtain ⟨⟨written, next⟩, hwrite, h⟩ := bind_ok h
        have hfirst := afwrite_kept hwrite
        dsimp only at h
        split at h
        · obtain ⟨-, rfl⟩ := Prod.mk.inj (Except.ok.inj h)
          exact hfirst
        · exact hfirst.trans (ih h)

theorem store_loop_holds {chunks : List Bytes} (hheld : Holds random afp data)
    (hchunks : ∀ chunk ∈ chunks, chunk ≠ [] ∧ chunk.length ≤ BUFSIZ)
    (h : store_loop random afp (chunks.map some) = .ok (error, afp'))
    (hshort : afp'.fp.stream.short = false) :
    error = false ∧ Holds random afp' (data ++ chunks.flatten) := by
  induction chunks generalizing afp data with
  | nil =>
    obtain ⟨rfl, rfl⟩ := Prod.mk.inj (Except.ok.inj h)
    exact ⟨rfl, by simpa using hheld⟩
  | cons chunk chunks ih =>
    obtain ⟨hne, hfits⟩ := hchunks chunk List.mem_cons_self
    have hpos := List.length_pos_of_ne_nil hne
    rw [List.map_cons, store_loop, if_neg (by omega)] at h
    obtain ⟨⟨written, next⟩, hwrite, h⟩ := bind_ok h
    have hcount := afwrite_count hwrite
    have hnonneg : ¬ssize_t written < 0 := by
      rw [ssize_t, if_pos (by omega)]
      omega
    dsimp only at h
    rw [if_neg hnonneg] at h
    have hnext := (store_loop_kept h).short hshort
    have hsize : chunk.length < 2 ^ 64 := Nat.lt_of_le_of_lt hfits (by decide)
    have hstep := afwrite_holds hheld hne hsize hwrite hnext
    obtain ⟨herror, hfinal⟩ := ih hstep (fun c hc => hchunks c (List.mem_cons_of_mem chunk hc)) h
    rw [List.append_assoc, ← List.flatten_cons] at hfinal
    exact ⟨herror, hfinal⟩

end Run

theorem aya_calloc_ok {n : ℕ} (h : n < 2 ^ 63) : aya_calloc n = .ok (calloc n) := if_pos h

/-! ## What is read of a file -/

section Fetch

variable {disk : Disk} {filename content : Bytes}

theorem afopen_content (hfile : disk.files filename = some content) :
    ∃ fp : FILE, afopen disk filename .rb = some ⟨fp, false⟩ ∧ fp.stream.content = content := by
  refine ⟨⟨filename, content, 0, MAX_FILE, disk.limits, disk.short⟩, ?_, rfl⟩
  rw [afopen, fopen, hfile]
  rfl

theorem fetch_file_absent (hfile : disk.files filename = none) :
    fetch_file disk filename = .ok none := by
  rw [fetch_file, afopen, fopen, hfile]
  rfl

theorem fetch_file_empty (hfile : disk.files filename = some []) :
    fetch_file disk filename = .ok (some ([], 0)) := by
  obtain ⟨fp, hopen, hcontent⟩ := afopen_content hfile
  have hread := @afread_empty (rewind fp) hcontent (calloc 0) 0 1
  rw [fetch_file, hopen]
  dsimp only
  rw [@afsize_empty ⟨fp, false⟩ hcontent]
  dsimp only
  rw [aya_calloc_ok (by decide)]
  simp only [bind, Except.bind, hread, lift_ok]
  rfl

/-- No memory is large enough for the size of a file that is too short. -/
theorem fetch_file_short (hfile : disk.files filename = some content) (hpos : content ≠ [])
    (hshort : content.length < sizeof_cryptfile) :
    fetch_file disk filename = .error (.abort []) := by
  obtain ⟨fp, hopen, rfl⟩ := afopen_content hfile
  have hheader : sizeof_cryptfile = 36 := rfl
  rw [fetch_file, hopen]
  dsimp only
  rw [@afsize_short ⟨fp, false⟩ (List.length_pos_of_ne_nil hpos) hshort]
  dsimp only
  rw [aya_calloc, if_neg (by omega)]
  rfl

theorem fetch_file_content (hfile : disk.files filename = some content)
    (hlong : sizeof_cryptfile ≤ content.length) (hfits : content.length ≤ MAX_FILE) :
    fetch_file disk filename = .ok (some (if magic content = FILE_MAGIC
      then content.drop sizeof_cryptfile else calloc (content.length - sizeof_cryptfile),
      content.length - sizeof_cryptfile)) := by
  obtain ⟨fp, hopen, hcontent⟩ := afopen_content hfile
  obtain ⟨hdr, hhdr⟩ : ∃ hdr, hdr = content.take sizeof_cryptfile := ⟨_, rfl⟩
  obtain ⟨data, hdata⟩ : ∃ data, data = content.drop sizeof_cryptfile := ⟨_, rfl⟩
  have hsplit : fp.stream.content = hdr ++ data := by
    rw [hcontent, hhdr, hdata, List.take_append_drop]
  have hlen : hdr.length = sizeof_cryptfile := by rw [hhdr, List.length_take_of_le hlong]
  have hcount : data.length = content.length - sizeof_cryptfile := by
    rw [hdata, List.length_drop]
  have hmagic : magic content = magic hdr := by
    rw [magic, magic, hhdr]
    simp [List.getD_eq_getElem?_getD, sizeof_cryptfile]
  have hmax : MAX_FILE < 2 ^ 63 := by decide
  rw [fetch_file, hopen]
  dsimp only
  rw [@afsize_eq _ data ⟨fp, false⟩ hlen hsplit (hcontent ▸ hfits)]
  dsimp only
  rw [aya_calloc_ok (by omega), ← hcount, hmagic, ← hdata]
  by_cases hvalid : magic hdr = FILE_MAGIC
  · have hread := @afread_ok _ data (rewind fp) hlen hvalid hsplit
    simp only [bind, Except.bind, hread, lift_ok, if_pos hvalid]
    rfl
  · have hread := @afread_refused _ data (rewind fp) hlen hvalid hsplit (calloc data.length)
      data.length 1
    simp only [bind, Except.bind, hread, lift_ok, if_neg hvalid]
    rfl

end Fetch

/-- A file that was written and closed is read back under its path. -/
theorem fetch_holds {random data : Bytes} {afp : AYAFILE} (h : Holds random afp data)
    (disk : Disk) :
    fetch_file (afclose afp disk) afp.fp.path = .ok (some (data, data.length)) := by
  have hfile : (afclose afp disk).files afp.fp.path = some afp.fp.stream.content :=
    Function.update_self _ _ _
  cases h with
  | fresh hnew hroom =>
    rw [hnew] at hfile
    exact fetch_file_empty hfile
  | begun hheader hend hroom =>
    have hlen := header_length random
    have hmagic : magic (header random ++ data) = FILE_MAGIC := header_magic random
    have hfits := hend.2
    rw [hroom, hheader] at hfits
    rw [hheader] at hfile
    rw [fetch_file_content hfile (by rw [List.length_append, hlen]; omega) hfits, if_pos hmagic,
      List.length_append, hlen, Nat.add_sub_cancel_left, ← hlen, List.drop_left]

theorem unlink_short (path : Bytes) (disk : Disk) : (unlink path disk).2.short = disk.short := by
  unfold unlink
  split <;> rfl

theorem afopen_fresh {random filename : Bytes} {disk : Disk} {afp : AYAFILE}
    (h : afopen disk filename .wb = some afp) : Holds random afp [] ∧ afp.fp.path = filename := by
  unfold afopen fopen at h
  dsimp only at h
  split at h
  · obtain rfl := Option.some.inj h
    exact ⟨Holds.fresh rfl rfl, rfl⟩
  · cases h

theorem fetch_stored {random data : Bytes} {file : HttpFile} {chunks : List Bytes}
    {filename : Bytes} {disk disk' : Disk} (hreads : file.reads = chunks.map some)
    (hchunks : ∀ chunk ∈ chunks, chunk ≠ []) (hdata : chunks.flatten = data)
    (hstore : store_file random file filename disk = .ok (0, disk'))
    (hwrites : disk'.short = false) :
    fetch_file disk' filename = .ok (some (data, data.length)) := by
  subst hdata
  unfold store_file at hstore
  split at hstore
  · cases hstore
  next fp hopen =>
    obtain ⟨⟨error, stored⟩, hloop, hstore⟩ := bind_ok hstore
    obtain ⟨hfresh, hpath⟩ := afopen_fresh hopen
    have hfits : ∀ chunk ∈ chunks, chunk ≠ [] ∧ chunk.length ≤ BUFSIZ := by
      intro chunk hchunk
      refine ⟨hchunks chunk hchunk, file.reads_fit chunk ?_⟩
      rw [hreads]
      exact List.mem_map_of_mem hchunk
    rw [hreads] at hloop
    dsimp only at hstore
    have hshort : stored.fp.stream.short = false := by
      split at hstore
      · have hunlink := unlink_short file.filename (afclose stored disk)
        split at hstore
        · cases hstore
        · obtain ⟨-, rfl⟩ := Prod.mk.inj (Except.ok.inj hstore)
          rw [← hwrites, hunlink]
          rfl
      · obtain ⟨-, rfl⟩ := Prod.mk.inj (Except.ok.inj hstore)
        exact hwrites
    obtain ⟨rfl, hheld⟩ := store_loop_holds hfresh hfits hloop hshort
    obtain ⟨-, rfl⟩ := Prod.mk.inj (Except.ok.inj hstore)
    rw [← hpath, ← (store_loop_kept hloop).path]
    exact fetch_holds hheld disk

def empty_disk : Disk := ⟨fun _ => none, fun _ => true, [], false⟩

def pieces : HttpFile where
  filename := bytes "a.txt"
  reads := [some (bytes "ab"), some (bytes "c")]
  reads_fit := by
    intro buf hbuf
    simp only [List.mem_cons, Option.some.injEq, List.not_mem_nil, or_false] at hbuf
    rcases hbuf with rfl | rfl <;> decide

theorem fetch_stored_pieces : ∃ disk',
    store_file [] pieces (bytes "s/app/1-x.txt") empty_disk = .ok (0, disk') ∧
      fetch_file disk' (bytes "s/app/1-x.txt") = .ok (some (bytes "abc", 3)) := by
  have hstore : ∃ disk', store_file [] pieces (bytes "s/app/1-x.txt") empty_disk = .ok (0, disk') ∧
      disk'.short = false := ⟨_, rfl, rfl⟩
  obtain ⟨disk', hstore, hwrites⟩ := hstore
  have hchunks : ∀ chunk ∈ [bytes "ab", bytes "c"], chunk ≠ [] := by decide
  exact ⟨disk', hstore, fetch_stored rfl hchunks rfl hstore hwrites⟩

end StoredFiles
