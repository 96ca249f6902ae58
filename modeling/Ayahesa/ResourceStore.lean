import Ayahesa.FailedUploads
import Ayahesa.FetchedFiles
import Ayahesa.ResourceIsolation
import Ayahesa.RunRefinement

/-! # The disk as a table of resources

Under an object id, an identifier and an extension a download finds what was uploaded last, as
long as the paths are printed as a whole and nothing disturbs the uploads. -/
namespace ResourceStore

open CMemory HttpRequest AppConfig AppStart DecimalText DelimitedFields FileStream
  AyaFile StoredFiles FailedUploads ResourceController ResourceNames ResourceIsolation RunRefinement
open TreeStore (int_of)
open JwtToken (Cuuid quid_tostring QUID_FULLLEN)

/-! ## The table -/

/-- Who a resource belongs to and the two parameters that name it. -/
structure Key where
  owner : ℕ
  uuid : Bytes
  ext : Bytes
  deriving DecidableEq, Repr

abbrev Table := Key → Option Bytes

inductive Action where
  | refused
  | bad_method
  | no_arguments
  | no_file
  | get (key : Key)
  | put (key : Key) (data : Bytes)
  deriving DecidableEq, Repr

/-- The answer, and the table afterwards; `writable` tells under which keys files can be put. -/
def next (writable : Key → Bool) (table : Table) : Action → Option Response × Table
  | .refused => (none, table)
  | .bad_method => (some ⟨405, [(bytes "allow", bytes "GET,POST")], []⟩, table)
  | .no_arguments => (some ⟨412, [], []⟩, table)
  | .no_file => (some ⟨400, [], []⟩, table)
  | .get key =>
    match table key with
    | none => (some ⟨404, [], []⟩, table)
    | some data => (some ⟨200, [(bytes "content-type", mime_type key.ext)], data⟩, table)
  | .put key data =>
    if writable key then
      (some ⟨200, [(bytes "content-type", bytes "text/plain")], key.uuid⟩,
        Function.update table key (some data))
    else (some ⟨500, [], []⟩, table)

/-! ## The paths of keys -/

def path (S : Bytes) (key : Key) : Bytes :=
  S ++ bytes "/app/" ++ decimal (int_of key.owner) ++ bytes "-" ++
    (key.uuid ++ bytes "." ++ key.ext)

/-- A key that a request can name, and whose path is not cut. -/
structure Named (S : Bytes) (key : Key) : Prop where
  owner : key.owner < 2 ^ 32
  uuid : v_uuid key.uuid = true
  room : (path S key).length ≤ 255

theorem int_of_injective {n m : ℕ} (hn : n < 2 ^ 32) (hm : m < 2 ^ 32) (h : int_of n = int_of m) :
    n = m := by
  unfold int_of at h
  split at h <;> split at h <;> omega

/-- A number is read up to the dash behind it, and one with a sign is no other. -/
theorem decimal_dash {i j : ℤ} {s t : Bytes} (h : decimal i ++ 45 :: s = decimal j ++ 45 :: t) :
    i = j ∧ s = t := by
  have hsigned : ∀ {n m : ℕ} {s t : Bytes}, digits n ++ 45 :: s ≠ 45 :: (digits m ++ 45 :: t) := by
    intro n m s t h
    cases hn : digits n with
    | nil => exact digits_ne_nil n hn
    | cons x more =>
      rw [hn, List.cons_append] at h
      apply digits_unsigned n
      rw [hn, List.head?_cons, List.head_eq_of_cons_eq h]
  by_cases hi : i < 0
  · rw [decimal, if_pos hi, List.cons_append] at h
    by_cases hj : j < 0
    · rw [decimal, if_pos hj, List.cons_append] at h
      obtain ⟨hsame, hrest⟩ :=
        front_unique digits_plain.1 digits_plain.1 (List.tail_eq_of_cons_eq h)
      have habs := digits_injective hsame
      exact ⟨by omega, hrest⟩
    · rw [decimal, if_neg hj] at h
      exact absurd h.symm hsigned
  · rw [decimal, if_neg hi] at h
    by_cases hj : j < 0
    · rw [decimal, if_pos hj, List.cons_append] at h
      exact absurd h hsigned
    · rw [decimal, if_neg hj] at h
      obtain ⟨hsame, hrest⟩ := front_unique digits_plain.1 digits_plain.1 h
      have habs := digits_injective hsame
      exact ⟨by omega, hrest⟩

theorem path_injective {S : Bytes} {k l : Key} (hk : Named S k) (hl : Named S l)
    (h : path S k = path S l) : k = l := by
  have hdash : bytes "-" = [45] := by decide
  have hdot : bytes "." = [46] := by decide
  simp only [path, List.append_assoc, hdash, hdot, List.cons_append, List.nil_append] at h
  have hnumber := List.append_cancel_left (List.append_cancel_left h)
  obtain ⟨hid, hrest⟩ := decimal_dash hnumber
  have hlen : k.uuid.length = l.uuid.length := by
    rw [v_uuid_length hk.uuid, v_uuid_length hl.uuid]
  obtain ⟨huuid, hext⟩ := List.append_inj hrest hlen
  obtain ⟨owner, uuid, ext⟩ := k
  obtain ⟨owner', uuid', ext'⟩ := l
  obtain rfl := int_of_injective hk.owner hl.owner hid
  obtain rfl : uuid = uuid' := huuid
  obtain rfl : ext = ext' := List.tail_eq_of_cons_eq hext
  rfl

/-! ## Requests -/

/-- A request for the resource route, with what the server draws while it answers. -/
structure Call where
  request : Request
  quid : Cuuid
  random : Bytes

/-- The route drops what the controller returns, so a refused request gets no response of it. -/
def app_resource (app : App) (null_text : Option Bytes) (disk : Disk) (c : Call) :
    Proc (Option Response × Disk) := do
  match ← resource app null_text c.request c.quid c.random disk with
  | none => return (none, disk)
  | some (response, disk) => return (some response, disk)

def unbraced (quid : Cuuid) : Bytes := ((quid_tostring quid).drop 1).take 36

def action (null_text : Option Bytes) (c : Call) : Action :=
  match c.request.hdlr_extra with
  | none => .refused
  | some auth =>
    if auth.principal.isNone ∨ auth.object_id = 0 then .refused
    else match c.request.method with
      | .HTTP_METHOD_GET =>
        match get_arguments c.request.query with
        | none => .no_arguments
        | some (uuid, ext) => .get ⟨auth.object_id, uuid, ext⟩
      | .HTTP_METHOD_POST =>
        match c.request.file with
        | none => .no_file
        | some file =>
          .put ⟨auth.object_id, unbraced c.quid,
            ((file_extension file.filename).or null_text).getD []⟩ (blocks_read file.reads).flatten
      | .other => .bad_method

/-- What the answer to an upload rests on apart from its key. -/
structure Uploads (null_text : Option Bytes) (S : Bytes) (disk : Disk) (key : Key) (c : Call)
    (file : HttpFile) : Prop where
  quid : Braced (quid_tostring c.quid)
  ext : (file_extension file.filename).or null_text ≠ none
  undisturbed : disk.writable (path S key) = true → Undisturbed file (path S key) disk

/-- A request whose path is printed as a whole, and whose upload is not disturbed. -/
def Sound (null_text : Option Bytes) (S : Bytes) (disk : Disk) (c : Call) : Prop :=
  match action null_text c with
  | .get key => Named S key
  | .put key _ => Named S key ∧ ∀ file, c.request.file = some file →
      Uploads null_text S disk key c file
  | _ => True

/-! ## What the disk holds of a table -/

def file_of (random data : Bytes) : Bytes := if data = [] then [] else header random ++ data

/-- The file of a key, if there is one, holds the data. -/
def Filed (file data : Option Bytes) : Prop :=
  match data with
  | none => file = none
  | some data => ∃ random, file = some (file_of random data) ∧
      (file_of random data).length ≤ MAX_FILE

structure Represents (S : Bytes) (writable : Key → Bool) (disk : Disk) (table : Table) : Prop where
  filed : ∀ key, Named S key → Filed (disk.files (path S key)) (table key)
  writable : ∀ key, disk.writable (path S key) = writable key

section Fetch

variable {disk : Disk} {filename data : Bytes}

theorem fetch_filed (h : Filed (disk.files filename) (some data)) :
    fetch_file disk filename = .ok (some (data, data.length)) := by
  obtain ⟨random, hfile, hfits⟩ := h
  by_cases hdata : data = []
  · subst hdata
    exact fetch_file_empty hfile
  · rw [file_of, if_neg hdata] at hfile hfits
    have hlen := header_length random
    have hmagic : magic (header random ++ data) = FILE_MAGIC := header_magic random
    rw [fetch_file_content hfile (by rw [List.length_append]; omega) hfits, if_pos hmagic,
      List.length_append, hlen, Nat.add_sub_cancel_left, ← hlen, List.drop_left]

end Fetch

section Store

variable {random : Bytes} {file : HttpFile} {filename : Bytes} {disk : Disk}

theorem blocks_read_ne_nil {reads : List (Option Bytes)} {block : Bytes}
    (h : block ∈ blocks_read reads) : block ≠ [] := by
  have hmem := List.reduceOption_mem_iff.mp h
  have htest := List.mem_takeWhile_imp hmem
  rintro rfl
  simp at htest

theorem stored_blocks_flatten (random : Bytes) (reads : List (Option Bytes)) :
    (stored_blocks random (blocks_read reads)).flatten =
      file_of random (blocks_read reads).flatten := by
  unfold stored_blocks file_of
  by_cases h : blocks_read reads = []
  · rw [h]
    rfl
  · obtain ⟨block, hblock⟩ := List.exists_mem_of_ne_nil _ h
    have hflat : (blocks_read reads).flatten ≠ [] := by
      intro hnil
      exact blocks_read_ne_nil hblock (List.flatten_eq_nil_iff.mp hnil block hblock)
    rw [if_neg h, if_neg hflat, List.flatten_cons]

theorem file_of_length (random : Bytes) (reads : List (Option Bytes)) :
    (file_of random (blocks_read reads).flatten).length =
      (write_sizes (blocks_read reads)).sum := by
  rw [← stored_blocks_flatten, List.length_flatten]
  unfold stored_blocks write_sizes
  split
  · rfl
  · rw [List.map_cons, header_length]

/-- An upload that nothing disturbs leaves the file of its data, and all others as they were. -/
theorem store_undisturbed (random : Bytes) (hwritable : disk.writable filename = true)
    (h : Undisturbed file filename disk) :
    ∃ disk', store_file random file filename disk = .ok (0, disk') ∧
      disk'.writable = disk.writable ∧
      Filed (disk'.files filename) (some (blocks_read file.reads).flatten) ∧
      ∀ other, other ≠ filename → disk'.files other = disk.files other := by
  rw [Undisturbed, if_pos hwritable] at h
  obtain ⟨hread, hlimits, hsize⟩ := h
  have hcontent := (stored_stream_iff random file disk).mpr ⟨hlimits, hsize⟩
  rw [stored_blocks_flatten] at hcontent
  have hopen := store_file_open random file hwritable
  rw [if_neg hread] at hopen
  refine ⟨_, hopen, rfl, ⟨random, ?_, ?_⟩, fun other hother => closed_other random file disk hother⟩
  · rw [closed_self, hcontent]
  · rw [file_of_length]
    exact hsize

end Store

/-! ## One request -/

section Step

variable {app : App} {null_text storage : Option Bytes} {S : Bytes} {writable : Key → Bool}
  {disk : Disk} {table : Table} {c : Call}

theorem resource_path_key (hS : format_string null_text storage = .ok S) {ext text : Bytes}
    {printed : Option Bytes} (hext : printed.or null_text = some ext) {object_id : ℕ}
    (hroom : (path S ⟨object_id, text, ext⟩).length ≤ 255) :
    resource_path null_text storage object_id text printed =
      .ok (path S ⟨object_id, text, ext⟩) := by
  have hprinted : format_string null_text printed = .ok ext := format_string_ok.mpr hext
  have hwhole : snprintf 256 (path S ⟨object_id, text, ext⟩) = path S ⟨object_id, text, ext⟩ :=
    List.take_of_length_le hroom
  rw [path] at hwhole ⊢
  simp only [List.append_assoc] at hwhole ⊢
  simp only [resource_path, hS, hprinted, bind, Except.bind, pure, Except.pure, List.append_assoc,
    hwhole]

theorem get_step (hstorage : app_storage app = .ok storage)
    (hS : format_string null_text storage = .ok S) (hrep : Represents S writable disk table)
    {auth : RequestData} {query : List (Bytes × Bytes)} {uuid ext : Bytes}
    (hquery : get_arguments query = some (uuid, ext))
    (hnamed : Named S ⟨auth.object_id, uuid, ext⟩) :
    ∃ response, get_resource app null_text auth query disk = .ok response ∧
      next writable table (.get ⟨auth.object_id, uuid, ext⟩) = (some response, table) := by
  have hext : (some ext).or null_text = some ext := rfl
  have hpath := resource_path_key hS hext hnamed.room
  have hopened : opened app null_text auth (.get query) =
      .ok (some (path S ⟨auth.object_id, uuid, ext⟩)) := by
    simp only [opened, hquery, hstorage, hpath, bind, Except.bind]
    rfl
  have hfiled := hrep.filed _ hnamed
  rw [get_resource_opened hquery hopened, next]
  cases htable : table ⟨auth.object_id, uuid, ext⟩ with
  | none =>
    rw [htable] at hfiled
    rw [fetch_file_absent hfiled]
    exact ⟨_, rfl, rfl⟩
  | some data =>
    rw [htable] at hfiled
    rw [fetch_filed hfiled]
    refine ⟨_, rfl, ?_⟩
    simp only [download, List.take_length]

theorem unbraced_eq {quid : Cuuid} {u : Bytes} (hu : v_uuid u = true)
    (hquid : quid_tostring quid = 123 :: (u ++ [125])) : unbraced quid = u := by
  rw [unbraced, hquid, List.drop_one, List.tail_cons, ← v_uuid_length hu, List.take_left]

theorem represents_put {key : Key} {data : Bytes} {disk' : Disk}
    (hrep : Represents S writable disk table) (hkey : Named S key)
    (hkept : disk'.writable = disk.writable)
    (hfiled : Filed (disk'.files (path S key)) (some data))
    (hothers : ∀ other, other ≠ path S key → disk'.files other = disk.files other) :
    Represents S writable disk' (Function.update table key (some data)) := by
  constructor
  · intro l hl
    by_cases hlk : l = key
    · subst hlk
      rw [Function.update_self]
      exact hfiled
    · have hother : path S l ≠ path S key := fun h => hlk (path_injective hl hkey h)
      rw [Function.update_of_ne hlk, hothers _ hother]
      exact hrep.filed l hl
  · intro l
    rw [hkept]
    exact hrep.writable l

theorem put_step (hstorage : app_storage app = .ok storage)
    (hS : format_string null_text storage = .ok S) (hrep : Represents S writable disk table)
    {auth : RequestData} {file : HttpFile} {key : Key}
    (hkey : key = ⟨auth.object_id, unbraced c.quid,
      ((file_extension file.filename).or null_text).getD []⟩)
    (hnamed : Named S key) (h : Uploads null_text S disk key c file) :
    ∃ response disk', put_resource app null_text auth (some file) c.quid c.random disk =
        .ok (response, disk') ∧
      some response = (next writable table (.put key (blocks_read file.reads).flatten)).1 ∧
      Represents S writable disk'
        (next writable table (.put key (blocks_read file.reads).flatten)).2 := by
  obtain ⟨u, hu, hquid⟩ := h.quid
  obtain ⟨hbuf, huuid⟩ := identifier_braced hu hquid
  obtain ⟨ext, hext⟩ := Option.ne_none_iff_exists'.mp h.ext
  rw [hext, Option.getD_some, unbraced_eq hu hquid] at hkey
  subst hkey
  have hpath := resource_path_key hS hext hnamed.room
  have hbody : (u ++ [0, 0]).take (QUID_FULLLEN - 2) = u := by
    have hlen : QUID_FULLLEN - 2 = u.length := (v_uuid_length hu).symm
    rw [hlen, List.take_left]
  simp only [put_resource, hbuf, huuid, hstorage, hpath, lift_ok, bind, Except.bind]
  cases hwritable : disk.writable (path S ⟨auth.object_id, u, ext⟩) with
  | false =>
    have hclosed : writable ⟨auth.object_id, u, ext⟩ = false := by
      rw [← hrep.writable, hwritable]
    rw [store_file_closed _ _ hwritable, next, hclosed]
    exact ⟨_, _, rfl, rfl, hrep⟩
  | true =>
    have hopen : writable ⟨auth.object_id, u, ext⟩ = true := by rw [← hrep.writable, hwritable]
    obtain ⟨disk', hstore, hkept, hfiled, hothers⟩ :=
      store_undisturbed c.random hwritable (h.undisturbed hwritable)
    rw [hstore, next, if_pos hopen, hbody]
    exact ⟨_, _, rfl, rfl, represents_put hrep hnamed hkept hfiled hothers⟩

theorem resource_step (hstorage : app_storage app = .ok storage)
    (hS : format_string null_text storage = .ok S) (hrep : Represents S writable disk table)
    (h : Sound null_text S disk c) :
    ∃ disk', app_resource app null_text disk c =
        .ok ((next writable table (action null_text c)).1, disk') ∧
      Represents S writable disk' (next writable table (action null_text c)).2 := by
  unfold Sound action at h
  unfold app_resource resource action
  cases hextra : c.request.hdlr_extra with
  | none => exact ⟨disk, rfl, hrep⟩
  | some auth =>
    simp only [hextra] at h
    by_cases hauth : auth.principal.isNone ∨ auth.object_id = 0
    · simp only [if_pos hauth]
      exact ⟨disk, rfl, hrep⟩
    · simp only [if_neg hauth] at h ⊢
      cases hmethod : c.request.method with
      | HTTP_METHOD_GET =>
        simp only [hmethod] at h ⊢
        cases hquery : get_arguments c.request.query with
        | none =>
          simp only [get_resource, hquery]
          exact ⟨disk, rfl, hrep⟩
        | some arguments =>
          obtain ⟨uuid, ext⟩ := arguments
          simp only [hquery] at h ⊢
          obtain ⟨response, hget, hnext⟩ := get_step hstorage hS hrep hquery h
          rw [hnext, hget]
          exact ⟨disk, rfl, hrep⟩
      | HTTP_METHOD_POST =>
        simp only [hmethod] at h ⊢
        cases hfile : c.request.file with
        | none => exact ⟨disk, rfl, hrep⟩
        | some file =>
          simp only [hfile] at h ⊢
          obtain ⟨response, disk', hput, hanswer, hnext⟩ :=
            put_step hstorage hS hrep rfl h.1 (h.2 file rfl)
          rw [← hanswer]
          refine ⟨disk', ?_, hnext⟩
          rw [hput]
          rfl
      | other => exact ⟨disk, rfl, hrep⟩

end Step

/-! ## Runs -/

def put_under (writable : Key → Bool) (key : Key) : Action → Option Bytes
  | .put k data => if k = key ∧ writable k then some data else none
  | _ => none

theorem next_entry (writable : Key → Bool) (table : Table) (a : Action) (key : Key) :
    (next writable table a).2 key = (put_under writable key a).or (table key) := by
  cases a with
  | get k =>
    rw [next]
    cases table k <;> rfl
  | put k data =>
    rw [next, put_under]
    by_cases hk : k = key
    · subst hk
      cases writable k with
      | false => simp
      | true => simp
    · have hother : key ≠ k := fun h => hk h.symm
      cases writable k with
      | false => simp
      | true => simp [hk, hother]
  | _ => rfl

/-- The latest upload under a key counts. -/
theorem spec_entry {α : Type*} (writable : Key → Bool) (meaning : α → Action) (table : Table)
    (requests : List α) (key : Key) :
    (spec (fun t a => next writable t (meaning a)) table requests).2 key =
      ((requests.filterMap fun a => put_under writable key (meaning a)).getLast?).or
        (table key) := by
  induction requests generalizing table with
  | nil => rfl
  | cons a more ih =>
    rw [spec, List.filterMap_cons]
    have hrest := ih (next writable table (meaning a)).2
    rw [next_entry] at hrest
    refine hrest.trans ?_
    cases put_under writable key (meaning a) with
    | none => rfl
    | some data =>
      rw [List.getLast?_cons]
      cases (more.filterMap fun a => put_under writable key (meaning a)).getLast? <;> rfl

/-- The controller answers every sequence of requests as the table does, and leaves a disk that
represents the table it leaves. -/
theorem resource_store_refines {app : App} {null_text storage : Option Bytes} {S : Bytes}
    {disk : Disk} {table : Table} {calls : List Call} (hstorage : app_storage app = .ok storage)
    (hS : format_string null_text storage = .ok S)
    (hrep : Represents S (fun key => disk.writable (path S key)) disk table)
    (hsound : Along (app_resource app null_text) (Sound null_text S) disk calls) :
    ∃ disk', run (app_resource app null_text) disk calls =
        .ok ((spec (fun t c => next (fun key => disk.writable (path S key)) t (action null_text c))
          table calls).1, disk') ∧
      Represents S (fun key => disk.writable (path S key)) disk'
        (spec (fun t c => next (fun key => disk.writable (path S key)) t (action null_text c))
          table calls).2 := by
  refine run_refines ?_ hrep hsound
  intro d t c hR hP
  exact resource_step hstorage hS hR hP

def upload_call : Call where
  request := ⟨.HTTP_METHOD_POST, some alice, [], some (upload (bytes "a.txt"))⟩
  quid := JwtToken.reference_jti
  random := []

def download_call : Call where
  request := ⟨.HTTP_METHOD_GET, some alice,
    [(bytes "id", unbraced JwtToken.reference_jti), (bytes "ext", bytes "txt")], none⟩
  quid := JwtToken.reference_jti
  random := []

def text_key : Key := ⟨7, unbraced JwtToken.reference_jti, bytes "txt"⟩

theorem text_key_named : Named (bytes "s") text_key := ⟨by decide, by decide, by decide⟩

theorem resource_store_refines_text : ∃ disk',
    run (app_resource store_app none) empty_disk [upload_call, download_call] =
      .ok ([some ⟨200, [(bytes "content-type", bytes "text/plain")], text_key.uuid⟩,
        some ⟨200, [(bytes "content-type", bytes "text/plain")], bytes "abc"⟩], disk') := by
  have hstorage : app_storage store_app = .ok (some (bytes "s")) := by decide
  have hrep : Represents (bytes "s") (fun key => empty_disk.writable (path (bytes "s") key))
      empty_disk fun _ => none := ⟨fun _ _ => rfl, fun _ => rfl⟩
  have hfirst : action none upload_call = .put text_key (bytes "abc") := by decide
  have hsecond : action none download_call = .get text_key := by decide
  have hsound : Along (app_resource store_app none) (Sound none (bytes "s")) empty_disk
      [upload_call, download_call] := by
    refine ⟨?_, fun _ _ _ => ⟨?_, fun _ _ _ => trivial⟩⟩
    · rw [Sound, hfirst]
      refine ⟨text_key_named, ?_⟩
      rintro file hfile
      obtain rfl := Option.some.inj hfile
      refine ⟨reference_braced, by decide, fun _ => ?_⟩
      have hopen : empty_disk.writable (path (bytes "s") text_key) = true := rfl
      rw [Undisturbed, if_pos hopen]
      exact ⟨by decide, by decide, by decide⟩
    · rw [Sound, hsecond]
      exact text_key_named
  obtain ⟨disk', hrun, -⟩ := resource_store_refines hstorage rfl hrep hsound
  refine ⟨disk', hrun.trans ?_⟩
  simp only [spec, hfirst, hsecond, next]
  rfl

end ResourceStore
