import Ayahesa.CMemory
import Ayahesa.FileStream
import Mathlib.Logic.Function.Basic

/-! # Files with a header

The first write puts a header in front of the data and the first read skips it. A file that
was never written to has none. -/
namespace AyaFile

open CMemory FileStream

def FILE_MAGIC : ℕ := 0xfe8a

def sizeof_cryptfile : ℕ := 36

/-- A file is at most as long as `ftell` can say. -/
def MAX_FILE : ℕ := 2 ^ 63 - 1

/-- The files by their paths, the paths that can be written to, and what the next writes do. -/
structure Disk where
  files : Bytes → Option Bytes
  writable : Bytes → Bool
  limits : List ℕ
  short : Bool

/-- An open file. What it holds is the content of its path once it is closed. -/
structure FILE where
  path : Bytes
  stream : Stream UInt8
  deriving DecidableEq, Repr

inductive Mode where
  | rb
  | wb
  deriving DecidableEq, Repr

def fopen (disk : Disk) (path : Bytes) : Mode → Option FILE
  | .rb => (disk.files path).map fun content =>
    ⟨path, content, 0, MAX_FILE, disk.limits, disk.short⟩
  | .wb =>
    if disk.writable path then some ⟨path, [], 0, MAX_FILE, disk.limits, disk.short⟩ else none

def fclose (fp : FILE) (disk : Disk) : Disk :=
  { disk with
    files := Function.update disk.files fp.path (some fp.stream.content)
    limits := fp.stream.limits
    short := fp.stream.short }

def unlink (path : Bytes) (disk : Disk) : ℤ × Disk :=
  if (disk.files path).isSome then
    (0, { disk with files := Function.update disk.files path none })
  else (-1, disk)

def rewind (fp : FILE) : FILE := { fp with stream := fp.stream.seek 0 }

def fwrite (ptr : Bytes) (size nmemb : ℕ) (fp : FILE) : C (ℕ × FILE) :=
  let total := size * nmemb
  if total = 0 then .ok (0, fp)
  else if ptr.length < total then .error .outOfBounds
  else .ok (fp.stream.accepted total / size, { fp with stream := fp.stream.put (ptr.take total) })

def fread (ptr : Bytes) (size nmemb : ℕ) (fp : FILE) : C (ℕ × Bytes × FILE) :=
  let data := fp.stream.next (size * nmemb)
  if ptr.length < data.length then .error .outOfBounds
  else .ok (data.length / size, data ++ ptr.drop data.length,
    { fp with stream := fp.stream.skip (size * nmemb) })

/-- The key, the vector and its size are set but never used. -/
structure AYAFILE where
  fp : FILE
  has_header : Bool
  deriving DecidableEq, Repr

/-- The bytes of a `uint16_t`, the low one first. -/
def uint16_t (n : ℕ) : Bytes := [(n % 256).toUInt8, (n / 256 % 256).toUInt8]

def magic (hdr : Bytes) : ℕ := (hdr.getD 0 0).toNat + 256 * (hdr.getD 1 0).toNat

def afopen (disk : Disk) (path : Bytes) (mode : Mode) : Option AYAFILE :=
  (fopen disk path mode).map fun fp => ⟨fp, false⟩

def read_header (afp : AYAFILE) : C (ℤ × AYAFILE) := do
  let fp := rewind afp.fp
  let hdr := calloc sizeof_cryptfile
  let (_, hdr, fp) ← fread hdr sizeof_cryptfile 1 fp
  if magic hdr ≠ FILE_MAGIC then return (-1, { afp with fp := fp })
  else return (0, ⟨fp, true⟩)

/-- `random` is what `random_string` leaves in the first bytes of the vector. -/
def header (random : Bytes) : Bytes :=
  let iv := random.take 16
  uint16_t FILE_MAGIC ++ uint16_t 128 ++ (iv ++ List.replicate (32 - iv.length) 0)

def write_header (random : Bytes) (afp : AYAFILE) : C AYAFILE := do
  let fp := rewind afp.fp
  let (_, fp) ← fwrite (header random) sizeof_cryptfile 1 fp
  return ⟨fp, true⟩

def afread (ptr : Bytes) (size nmemb : ℕ) (afp : AYAFILE) : C (ℕ × Bytes × AYAFILE) := do
  let (result, afp) ← (if afp.has_header then .ok (0, afp) else read_header afp)
  if result < 0 then return (0, ptr, afp)
  else
    let (n, ptr, fp) ← fread ptr size nmemb afp.fp
    return (n, ptr, { afp with fp := fp })

def afwrite (random ptr : Bytes) (size nmemb : ℕ) (afp : AYAFILE) : C (ℕ × AYAFILE) := do
  let afp ← (if afp.has_header then .ok afp else write_header random afp)
  let (n, fp) ← fwrite ptr (size_t (size * nmemb)) nmemb afp.fp
  return (n, { afp with fp := fp })

/-- The size of the data, taken modulo the width of a `size_t`; the file is left at its start. -/
def afsize (afp : AYAFILE) : ℕ × AYAFILE :=
  let filesz := size_t afp.fp.stream.content.length
  let afp := { afp with fp := rewind afp.fp }
  if filesz < 1 then (0, afp) else (size_t (filesz + 2 ^ 64 - sizeof_cryptfile), afp)

def afclose (afp : AYAFILE) (disk : Disk) : Disk := fclose afp.fp disk

/-! ## What a handle that is written to holds -/

theorem header_length (random : Bytes) : (header random).length = sizeof_cryptfile := by
  have hiv := List.length_take_le 16 random
  simp only [header, uint16_t, List.length_append, List.length_cons, List.length_nil,
    List.length_replicate, sizeof_cryptfile]
  omega

theorem header_magic (random : Bytes) : magic (header random) = FILE_MAGIC := by
  have hlow : (header random).getD 0 0 = 0x8a := rfl
  have hhigh : (header random).getD 1 0 = 0xfe := rfl
  rw [magic, hlow, hhigh]
  decide

/-- The data written so far: nothing and no header, or the data behind the header. -/
inductive Holds (random : Bytes) : AYAFILE → Bytes → Prop where
  | fresh {fp : FILE} (hnew : fp.stream.content = []) (hroom : fp.stream.room = MAX_FILE) :
      Holds random ⟨fp, false⟩ []
  | begun {fp : FILE} {data : Bytes} (hcontent : fp.stream.content = header random ++ data)
      (hend : fp.stream.AtEnd) (hroom : fp.stream.room = MAX_FILE) :
      Holds random ⟨fp, true⟩ data

theorem fwrite_ok {ptr : Bytes} {size n : ℕ} {fp fp' : FILE} (hlen : ptr.length = size)
    (hpos : 0 < size) (h : fwrite ptr size 1 fp = .ok (n, fp')) :
    fp' = { fp with stream := fp.stream.put ptr } ∧ n = fp.stream.accepted size / size := by
  unfold fwrite at h
  rw [Nat.mul_one, if_neg (by omega), if_neg (by omega), List.take_of_length_le (by omega)] at h
  obtain ⟨rfl, rfl⟩ := Prod.mk.inj (Except.ok.inj h)
  exact ⟨rfl, rfl⟩

theorem fwrite_eq {ptr : Bytes} {size nmemb : ℕ} {fp : FILE} (hpos : 0 < size * nmemb)
    (hlen : size * nmemb ≤ ptr.length) :
    fwrite ptr size nmemb fp = .ok (fp.stream.accepted (size * nmemb) / size,
      { fp with stream := fp.stream.put (ptr.take (size * nmemb)) }) := by
  unfold fwrite
  dsimp only
  rw [if_neg (by omega), if_neg (by omega)]

theorem write_header_eq (random : Bytes) (fp : FILE) :
    write_header random ⟨fp, false⟩ =
      .ok ⟨{ fp with stream := (fp.stream.seek 0).put (header random) }, true⟩ := by
  have hlen := header_length random
  have hwrite := @fwrite_eq (header random) sizeof_cryptfile 1 (rewind fp) (by decide)
    (by rw [hlen, Nat.mul_one])
  rw [List.take_of_length_le (by rw [hlen, Nat.mul_one])] at hwrite
  rw [write_header]
  simp only [hwrite, bind, Except.bind]
  rfl

theorem afwrite_first (random ptr : Bytes) (size nmemb : ℕ) (fp : FILE) :
    afwrite random ptr size nmemb ⟨fp, false⟩ = afwrite random ptr size nmemb
      ⟨{ fp with stream := (fp.stream.seek 0).put (header random) }, true⟩ := by
  rw [afwrite, if_neg Bool.false_ne_true, write_header_eq]
  rfl

theorem afwrite_block (random : Bytes) {buf : Bytes} (fp : FILE) (hbuf : buf ≠ [])
    (hsize : buf.length < 2 ^ 64) :
    afwrite random buf buf.length 1 ⟨fp, true⟩ =
      .ok (fp.stream.accepted buf.length / buf.length,
        ⟨{ fp with stream := fp.stream.put buf }, true⟩) := by
  have hpos := List.length_pos_of_ne_nil hbuf
  have hwrite := @fwrite_eq buf buf.length 1 fp (by omega) (by omega)
  rw [Nat.mul_one, List.take_length] at hwrite
  rw [afwrite, if_pos rfl, Nat.mul_one, size_t_of_lt hsize]
  simp only [hwrite, bind, Except.bind]
  rfl

/-- What every write leaves as it was; a stream stays marked once a write was cut short. -/
structure Kept (fp fp' : FILE) : Prop where
  path : fp'.path = fp.path
  short : fp'.stream.short = false → fp.stream.short = false

theorem Kept.refl (fp : FILE) : Kept fp fp := ⟨rfl, id⟩

theorem Kept.trans {fp fp' fp'' : FILE} (h : Kept fp fp') (h' : Kept fp' fp'') : Kept fp fp'' :=
  ⟨h'.path.trans h.path, fun hs => h.short (h'.short hs)⟩

theorem fwrite_kept {ptr : Bytes} {size nmemb n : ℕ} {fp fp' : FILE}
    (h : fwrite ptr size nmemb fp = .ok (n, fp')) : Kept fp fp' := by
  unfold fwrite at h
  dsimp only at h
  split at h
  · obtain ⟨-, rfl⟩ := Prod.mk.inj (Except.ok.inj h)
    exact Kept.refl fp
  · split at h
    · cases h
    · obtain ⟨-, rfl⟩ := Prod.mk.inj (Except.ok.inj h)
      exact ⟨rfl, fun hs => (whole_of_put hs).1⟩

theorem fwrite_count {ptr : Bytes} {size nmemb n : ℕ} {fp fp' : FILE}
    (h : fwrite ptr size nmemb fp = .ok (n, fp')) : n ≤ nmemb := by
  unfold fwrite at h
  dsimp only at h
  split at h
  · obtain ⟨rfl, -⟩ := Prod.mk.inj (Except.ok.inj h)
    exact Nat.zero_le nmemb
  · next hpos =>
    split at h
    · cases h
    · obtain ⟨rfl, -⟩ := Prod.mk.inj (Except.ok.inj h)
      have hsize : 0 < size := Nat.pos_of_ne_zero fun h0 => hpos (by rw [h0, Nat.zero_mul])
      have hle := Nat.div_le_div_right (c := size) (accepted_le fp.stream (size * nmemb))
      rwa [Nat.mul_div_cancel_left nmemb hsize] at hle

section Write

variable {random ptr data : Bytes} {afp afp' : AYAFILE} {size nmemb n : ℕ}

theorem write_header_kept (h : write_header random afp = .ok afp') : Kept afp.fp afp'.fp := by
  obtain ⟨⟨m, fp⟩, hwrite, hret⟩ := bind_ok h
  obtain rfl := Except.ok.inj hret
  have hkept := fwrite_kept hwrite
  exact ⟨hkept.path, hkept.short⟩

theorem afwrite_inv (h : afwrite random ptr size nmemb afp = .ok (n, afp')) :
    ∃ begun fp, (if afp.has_header then .ok afp else write_header random afp) = .ok begun ∧
      fwrite ptr (size_t (size * nmemb)) nmemb begun.fp = .ok (n, fp) ∧
      afp' = { begun with fp := fp } := by
  obtain ⟨begun, hbegun, h⟩ := bind_ok h
  obtain ⟨⟨m, fp⟩, hwrite, hret⟩ := bind_ok h
  obtain ⟨rfl, rfl⟩ := Prod.mk.inj (Except.ok.inj hret)
  exact ⟨begun, fp, hbegun, hwrite, rfl⟩

theorem afwrite_count (h : afwrite random ptr size nmemb afp = .ok (n, afp')) : n ≤ nmemb := by
  obtain ⟨begun, fp, -, hwrite, -⟩ := afwrite_inv h
  exact fwrite_count hwrite

theorem afwrite_kept (h : afwrite random ptr size nmemb afp = .ok (n, afp')) :
    Kept afp.fp afp'.fp := by
  obtain ⟨begun, fp, hbegun, hwrite, rfl⟩ := afwrite_inv h
  have hfirst : Kept afp.fp begun.fp := by
    split at hbegun
    · obtain rfl := Except.ok.inj hbegun
      exact Kept.refl afp.fp
    · exact write_header_kept hbegun
  exact hfirst.trans (fwrite_kept hwrite)

/-- The first write puts the header at the start of the file. -/
theorem write_header_holds {fp : FILE} (hnew : fp.stream.content = [])
    (hroom : fp.stream.room = MAX_FILE) (h : write_header random ⟨fp, false⟩ = .ok afp')
    (hshort : afp'.fp.stream.short = false) : Holds random afp' [] := by
  obtain ⟨⟨n, written⟩, hwrite, hret⟩ := bind_ok h
  obtain rfl := Except.ok.inj hret
  obtain ⟨rfl, -⟩ := fwrite_ok (header_length random) (by decide) hwrite
  have hend : (rewind fp).stream.AtEnd := by
    refine ⟨?_, ?_⟩
    · exact (List.length_eq_zero_iff.mpr hnew).symm
    · exact hnew ▸ Nat.zero_le _
  obtain ⟨hcontent, hend⟩ := put_at_end hend hshort
  apply Holds.begun
  · rw [List.append_nil, hcontent]
    exact hnew ▸ List.nil_append _
  · exact hend
  · exact hroom

theorem afwrite_holds (hheld : Holds random afp data) (hptr : ptr ≠ [])
    (hsize : ptr.length < 2 ^ 64) (h : afwrite random ptr ptr.length 1 afp = .ok (n, afp'))
    (hshort : afp'.fp.stream.short = false) : Holds random afp' (data ++ ptr) := by
  have hpos := List.length_pos_of_ne_nil hptr
  obtain ⟨begun, fp, hbegun, hwrite, rfl⟩ := afwrite_inv h
  rw [Nat.mul_one, size_t_of_lt hsize] at hwrite
  obtain ⟨rfl, -⟩ := fwrite_ok rfl hpos hwrite
  have hbefore := (whole_of_put hshort).1
  have hheader : Holds random begun data ∧ begun.has_header = true := by
    cases hheld with
    | fresh hnew hroom =>
      rw [if_neg Bool.false_ne_true] at hbegun
      have hheld := write_header_holds hnew hroom hbegun hbefore
      refine ⟨hheld, ?_⟩
      obtain ⟨⟨k, f⟩, -, hret⟩ := bind_ok hbegun
      rw [← Except.ok.inj hret]
    | begun hcontent hend hroom =>
      obtain rfl := Except.ok.inj hbegun
      exact ⟨Holds.begun hcontent hend hroom, rfl⟩
  obtain ⟨hheld, htrue⟩ := hheader
  cases hheld with
  | fresh => cases htrue
  | begun hcontent hend hroom =>
    obtain ⟨hput, hend⟩ := put_at_end hend hshort
    apply Holds.begun
    · rw [hput, hcontent, List.append_assoc]
    · exact hend
    · exact hroom

end Write

/-! ## Reading the data back -/

theorem fread_ok {ptr data : Bytes} {size nmemb : ℕ} {fp : FILE}
    (hnext : fp.stream.next (size * nmemb) = data) (hroom : data.length ≤ ptr.length) :
    fread ptr size nmemb fp = .ok (data.length / size, data ++ ptr.drop data.length,
      { fp with stream := fp.stream.skip (size * nmemb) }) := by
  unfold fread
  dsimp only
  rw [hnext, if_neg (by omega)]

theorem read_header_eq {hdr data : Bytes} {afp : AYAFILE} (hlen : hdr.length = sizeof_cryptfile)
    (hcontent : afp.fp.stream.content = hdr ++ data) :
    read_header afp =
      .ok (if magic hdr = FILE_MAGIC then
          (0, ⟨{ afp.fp with stream := afp.fp.stream.seek sizeof_cryptfile }, true⟩)
        else (-1, { afp with fp := { afp.fp with
          stream := afp.fp.stream.seek sizeof_cryptfile } })) := by
  have hnext : (rewind afp.fp).stream.next (sizeof_cryptfile * 1) = hdr := by
    rw [Nat.mul_one, ← hlen]
    exact next_front hcontent rfl
  have hread := @fread_ok (calloc sizeof_cryptfile) _ _ _ _ hnext
    (by rw [hlen, calloc, List.length_replicate])
  have hskip : (rewind afp.fp).stream.skip (sizeof_cryptfile * 1) =
      afp.fp.stream.seek sizeof_cryptfile := by
    rw [Stream.skip, hnext, hlen]
    simp [rewind, Stream.seek]
  have hrest : (calloc sizeof_cryptfile).drop hdr.length = [] := by
    rw [hlen, calloc, List.drop_replicate, Nat.sub_self, List.replicate_zero]
  rw [hskip, hrest, List.append_nil] at hread
  rw [read_header]
  simp only [hread, bind, Except.bind]
  by_cases hmagic : magic hdr = FILE_MAGIC
  · rw [if_neg (not_not.mpr hmagic), if_pos hmagic]
    rfl
  · rw [if_pos hmagic, if_neg hmagic]
    rfl

theorem read_header_empty {afp : AYAFILE} (hcontent : afp.fp.stream.content = []) :
    read_header afp = .ok (-1, { afp with fp :=
      { afp.fp with stream := (rewind afp.fp).stream.skip (sizeof_cryptfile * 1) } }) := by
  have hnext : (rewind afp.fp).stream.next (sizeof_cryptfile * 1) = [] := by
    rw [Stream.next, rewind, Stream.seek, hcontent, List.drop_nil, List.take_nil]
  have hread := @fread_ok (calloc sizeof_cryptfile) _ _ _ _ hnext (Nat.zero_le _)
  have hmagic : magic (calloc sizeof_cryptfile) ≠ FILE_MAGIC := by decide
  rw [read_header]
  simp only [hread, bind, Except.bind, List.nil_append, List.length_nil, List.drop_zero]
  rw [if_pos hmagic]
  rfl

/-- The first read of a handle passes the header. -/
theorem afread_first {hdr data : Bytes} {fp : FILE} (hhdr : hdr.length = sizeof_cryptfile)
    (hmagic : magic hdr = FILE_MAGIC) (hcontent : fp.stream.content = hdr ++ data) (ptr : Bytes)
    (size nmemb : ℕ) :
    afread ptr size nmemb ⟨fp, false⟩ =
      afread ptr size nmemb ⟨{ fp with stream := fp.stream.seek sizeof_cryptfile }, true⟩ := by
  have hheader := @read_header_eq hdr data ⟨fp, false⟩ hhdr hcontent
  rw [if_pos hmagic] at hheader
  rw [afread, if_neg Bool.false_ne_true, hheader]
  rfl

theorem afread_ok {hdr data : Bytes} {fp : FILE} (hhdr : hdr.length = sizeof_cryptfile)
    (hmagic : magic hdr = FILE_MAGIC) (hcontent : fp.stream.content = hdr ++ data) :
    afread (calloc data.length) data.length 1 ⟨fp, false⟩ =
      .ok (data.length / data.length, data, ⟨{ fp with
        stream := (fp.stream.seek sizeof_cryptfile).skip (data.length * 1) }, true⟩) := by
  have hnext : (fp.stream.seek sizeof_cryptfile).next (data.length * 1) = data := by
    rw [Nat.mul_one]
    exact next_rest (s := fp.stream.seek sizeof_cryptfile) hcontent hhdr.symm
  have hlen : (calloc data.length).length = data.length := List.length_replicate
  have hread := @fread_ok (calloc data.length) data data.length 1
    { fp with stream := fp.stream.seek sizeof_cryptfile } hnext (Nat.le_of_eq hlen.symm)
  rw [List.drop_eq_nil_of_le (Nat.le_of_eq hlen), List.append_nil] at hread
  rw [afread_first hhdr hmagic hcontent, afread, if_pos rfl]
  simp only [bind, Except.bind]
  rw [if_neg (by decide), hread]
  rfl

theorem afread_empty {fp : FILE} (hcontent : fp.stream.content = []) (ptr : Bytes)
    (size nmemb : ℕ) : afread ptr size nmemb ⟨fp, false⟩ =
      .ok (0, ptr, ⟨{ fp with
        stream := (rewind fp).stream.skip (sizeof_cryptfile * 1) }, false⟩) := by
  have hheader := @read_header_empty ⟨fp, false⟩ hcontent
  rw [afread, if_neg Bool.false_ne_true, hheader]
  rfl

theorem afread_refused {hdr data : Bytes} {fp : FILE} (hhdr : hdr.length = sizeof_cryptfile)
    (hmagic : magic hdr ≠ FILE_MAGIC) (hcontent : fp.stream.content = hdr ++ data) (ptr : Bytes)
    (size nmemb : ℕ) :
    afread ptr size nmemb ⟨fp, false⟩ =
      .ok (0, ptr, ⟨{ fp with stream := fp.stream.seek sizeof_cryptfile }, false⟩) := by
  have hheader := @read_header_eq hdr data ⟨fp, false⟩ hhdr hcontent
  rw [if_neg hmagic] at hheader
  rw [afread, if_neg Bool.false_ne_true, hheader]
  rfl

/-- The size is that of the data behind the header. -/
theorem afsize_eq {hdr data : Bytes} {afp : AYAFILE} (hhdr : hdr.length = sizeof_cryptfile)
    (hcontent : afp.fp.stream.content = hdr ++ data)
    (hfits : afp.fp.stream.content.length ≤ MAX_FILE) :
    afsize afp = (data.length, { afp with fp := rewind afp.fp }) := by
  have hlen : afp.fp.stream.content.length = sizeof_cryptfile + data.length := by
    rw [hcontent, List.length_append, hhdr]
  have hmax : MAX_FILE < 2 ^ 64 := by decide
  have hpos : ¬afp.fp.stream.content.length < 1 := by
    rw [hlen, sizeof_cryptfile]
    omega
  have hsize : size_t (afp.fp.stream.content.length + 2 ^ 64 - sizeof_cryptfile) =
      data.length := by
    rw [hlen, size_t, show sizeof_cryptfile + data.length + 2 ^ 64 - sizeof_cryptfile =
      data.length + 2 ^ 64 from by omega, Nat.add_mod_right, Nat.mod_eq_of_lt (by omega)]
  rw [afsize, size_t_of_lt (by omega), if_neg hpos, hsize]

theorem afsize_empty {afp : AYAFILE} (hcontent : afp.fp.stream.content = []) :
    afsize afp = (0, { afp with fp := rewind afp.fp }) := by
  rw [afsize, hcontent]
  rfl

/-- A file that is shorter than a header has a size near the top of the type. -/
theorem afsize_short {afp : AYAFILE} (hpos : 0 < afp.fp.stream.content.length)
    (hshort : afp.fp.stream.content.length < sizeof_cryptfile) :
    afsize afp = (afp.fp.stream.content.length + 2 ^ 64 - sizeof_cryptfile,
      { afp with fp := rewind afp.fp }) := by
  have hheader : sizeof_cryptfile = 36 := rfl
  rw [afsize, size_t_of_lt (by omega), if_neg (by omega), size_t_of_lt (by omega)]

end AyaFile
