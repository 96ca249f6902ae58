import Ayahesa.AppStart
import Ayahesa.DecimalText
import Ayahesa.JwtToken
import Ayahesa.StoredFiles

/-! # The resource controller

An upload and a download compose the path of a resource separately. The download takes the
identifier and the extension from validated parameters, the upload makes the identifier itself
and takes the extension of the name that the client gave. -/
namespace ResourceController

open CMemory HttpRequest AppConfig AppStart TreeStore DecimalText AyaFile StoredFiles
open JwtToken (Cuuid quid_tostring QUID_FULLLEN)

/-! ## Names of files -/

def strrchr (c : UInt8) : Bytes → Option ℕ
  | [] => none
  | x :: s =>
    match strrchr c s with
    | some i => some (i + 1)
    | none => if x = c then some 0 else none

/-- NULL without a dot, and where the only dot is the first character. -/
def file_extension (filename : Bytes) : Option Bytes :=
  match strrchr 46 filename with
  | none | some 0 => none
  | some dot => some (filename.drop (dot + 1))

/-- `isalpha` in the C locale. -/
def isalpha (c : UInt8) : Bool := (65 ≤ c && c ≤ 90) || (97 ≤ c && c ≤ 122)

def strisalpha (str : Bytes) : Bool := str.all isalpha

def validator_file_extension (data : Option Bytes) : Bool :=
  match data with
  | none => false
  | some data =>
    if data.length = 0 ∨ data.length > 8 then false
    else strisalpha data

def mimelist : List (String × String) :=
  [("aac", "audio/aac"), ("mid", "audio/midi"), ("midi", "audio/midi"), ("oga", "audio/ogg"),
    ("wav", "audio/x-wav"), ("weba", "audio/x-webm"), ("avi", "video/x-msvideo"),
    ("mpeg", "video/mpeg"), ("ogv", "video/ogg"), ("webm", "video/webm"), ("3gp", "video/3gpp"),
    ("3g2", "video/3gpp2"), ("jpeg", "image/jpeg"), ("jpg", "image/jpeg"), ("gif", "image/gif"),
    ("ico", "image/x-icon"), ("svg", "image/svg+xml"), ("tif", "image/tiff"),
    ("tiff", "image/tiff"), ("webp", "image/webp"), ("png", "image/png"), ("ttf", "font/ttf"),
    ("woff", "font/woff"), ("woff2", "font/woff2"), ("abw", "application/x-abiword"),
    ("bz", "application/x-bzip"), ("bz2", "application/x-bzip2"), ("csh", "application/x-csh"),
    ("bin", "application/octet-stream"), ("exe", "application/octet-stream"),
    ("dll", "application/octet-stream"), ("der", "application/x-x509-ca-cert"),
    ("csr", "application/pkcs10"), ("json", "application/json"), ("pem", "application/x-pem-file"),
    ("js", "application/javascript"), ("xhtml", "application/xhtml+xml"),
    ("arc", "application/octet-stream"), ("azw", "application/vnd.amazon.ebook"),
    ("doc", "application/msword"), ("epub", "application/epub+zip"),
    ("jar", "application/java-archive"), ("mpkg", "application/vnd.apple.installer+xml"),
    ("odp", "application/vnd.oasis.opendocument.presentation"),
    ("ods", "application/vnd.oasis.opendocument.spreadsheet"),
    ("odt", "application/vnd.oasis.opendocument.text"), ("ogx", "application/ogg"),
    ("pdf", "application/pdf"), ("ppt", "application/vnd.ms-powerpoint"),
    ("rar", "application/x-rar-compressed"), ("rtf", "application/rtf"),
    ("sh", "application/x-sh"), ("swf", "application/x-shockwave-flash"),
    ("tar", "application/x-tar"), ("vsd", "application/vnd.visio"),
    ("xls", "application/vnd.ms-excel"), ("xml", "application/xml"),
    ("xul", "application/vnd.mozilla.xul+xml"), ("zip", "application/zip"),
    ("7z", "application/x-7z-compressed"), ("ics", "text/calendar"), ("yml", "text/x-yaml"),
    ("toml", "text/x-toml"), ("txt", "text/plain"), ("css", "text/css"), ("csv", "text/csv"),
    ("htm", "text/html"), ("html", "text/html"), ("appcache", "text/cache-manifest")]

def mime_type (ext : Bytes) : Bytes :=
  match mimelist.find? fun m => bytes m.1 = ext with
  | some m => bytes m.2
  | none => bytes "application/octet-stream"

/-! ## The parameters of a download -/

def is_hex (c : UInt8) : Bool := (48 ≤ c && c ≤ 57) || (97 ≤ c && c ≤ 102)

def groups : List ℕ → Bytes → Bool
  | [], text => text.isEmpty
  | [n], text => text.length = n && text.all is_hex
  | n :: lengths, text =>
    (text.take n).length = n && (text.take n).all is_hex && text[n]? = some 45 &&
      groups lengths (text.drop (n + 1))

/-- `^[0-9a-f]{8}-[0-9a-f]{4}-[0-9a-f]{4}-[0-9a-f]{4}-[0-9a-f]{12}$` -/
def v_uuid (data : Bytes) : Bool := groups [8, 4, 4, 4, 12] data

def v_extension (data : Bytes) : Bool := validator_file_extension (some data)

/-- `params get /app/resource` -/
def params_get : List (Bytes × (Bytes → Bool)) :=
  [(bytes "id", v_uuid), (bytes "ext", v_extension)]

/-- A parameter is kept if it is listed and its validator accepts the value. -/
def http_populate_get (query : List (Bytes × Bytes)) : List (Bytes × Bytes) :=
  query.filter fun argument =>
    (params_get.lookup argument.1).any fun validator => validator argument.2

def get_arguments (query : List (Bytes × Bytes)) : Option (Bytes × Bytes) := do
  let arguments := http_populate_get query
  let uuid ← arguments.lookup (bytes "id")
  let ext ← arguments.lookup (bytes "ext")
  return (uuid, ext)

/-! ## The controller -/

/-- What both sides print into a buffer of 256 bytes; the object id goes through `%d`. -/
def resource_path (null_text storage : Option Bytes) (object_id : ℕ) (uuid : Bytes)
    (ext : Option Bytes) : C Bytes := do
  let storage ← format_string null_text storage
  let ext ← format_string null_text ext
  return snprintf 256 (storage ++ bytes "/app/" ++ decimal (int_of object_id) ++ bytes "-" ++
    uuid ++ bytes "." ++ ext)

structure Response where
  status : ℕ
  headers : List (Bytes × Bytes)
  body : Bytes
  deriving DecidableEq, Repr

def download (ext : Bytes) : Option (Bytes × ℕ) → Response
  | none => ⟨404, [], []⟩
  | some (string, file_size) =>
    ⟨200, [(bytes "content-type", mime_type ext)], string.take file_size⟩

def get_resource (app : App) (null_text : Option Bytes) (auth : RequestData)
    (query : List (Bytes × Bytes)) (disk : Disk) : Proc Response :=
  match get_arguments query with
  | none => .ok ⟨412, [], []⟩
  | some (uuid, ext) => do
    let storage ← lift (app_storage app)
    let filename ← lift (resource_path null_text storage auth.object_id uuid (some ext))
    return download ext (← fetch_file disk filename)

/-- The buffer of the identifier: its last brace is overwritten and the first one moved away. -/
def identifier (quid : Cuuid) : C Bytes := do
  let uuid ← store (quid_tostring quid ++ [0]) (QUID_FULLLEN - 1) 0
  return uuid.drop 1

def put_resource (app : App) (null_text : Option Bytes) (auth : RequestData)
    (file : Option HttpFile) (quid : Cuuid) (random : Bytes) (disk : Disk) :
    Proc (Response × Disk) :=
  match file with
  | none => .ok (⟨400, [], []⟩, disk)
  | some file => do
    let buf ← lift (identifier quid)
    let uuid ← lift (cstr buf 0)
    let storage ← lift (app_storage app)
    let filename ← lift (resource_path null_text storage auth.object_id uuid
      (file_extension file.filename))
    let (result, disk) ← lift (store_file random file filename disk)
    if result < 0 then return (⟨500, [], []⟩, disk)
    else return (⟨200, [(bytes "content-type", bytes "text/plain")],
      buf.take (QUID_FULLLEN - 2)⟩, disk)

inductive Method where
  | HTTP_METHOD_GET
  | HTTP_METHOD_POST
  | other
  deriving DecidableEq, Repr

/-- `query` and `file` are what the request carries for the one and for the other action. -/
structure Request where
  method : Method
  hdlr_extra : Option RequestData
  query : List (Bytes × Bytes)
  file : Option HttpFile

/-- `none` for `return_error`. -/
def resource (app : App) (null_text : Option Bytes) (request : Request) (quid : Cuuid)
    (random : Bytes) (disk : Disk) : Proc (Option (Response × Disk)) :=
  match request.hdlr_extra with
  | none => .ok none
  | some auth =>
    if auth.principal.isNone ∨ auth.object_id = 0 then .ok none
    else match request.method with
      | .HTTP_METHOD_GET =>
        (get_resource app null_text auth request.query disk).map fun r => some (r, disk)
      | .HTTP_METHOD_POST =>
        (put_resource app null_text auth request.file quid random disk).map some
      | .other => .ok (some (⟨405, [(bytes "allow", bytes "GET,POST")], []⟩, disk))

/-! ## The paths that are opened -/

inductive Access where
  | get (query : List (Bytes × Bytes))
  | post (filename : Bytes) (quid : Cuuid)

/-- The path under which a request opens a file, if it gets that far. -/
def opened (app : App) (null_text : Option Bytes) (auth : RequestData) : Access → C (Option Bytes)
  | .get query =>
    match get_arguments query with
    | none => .ok none
    | some (uuid, ext) => do
      let storage ← app_storage app
      return some (← resource_path null_text storage auth.object_id uuid (some ext))
  | .post filename quid => do
    let uuid ← cstr (← identifier quid) 0
    let storage ← app_storage app
    return some (← resource_path null_text storage auth.object_id uuid (file_extension filename))

section Opened

variable {app : App} {null_text : Option Bytes} {auth : RequestData} {path : Bytes}

/-- A download opens its path for reading, and its answer depends on nothing else. -/
theorem get_resource_opened {query : List (Bytes × Bytes)} {uuid ext : Bytes}
    (hquery : get_arguments query = some (uuid, ext))
    (h : opened app null_text auth (.get query) = .ok (some path)) (disk : Disk) :
    get_resource app null_text auth query disk = (fetch_file disk path).map (download ext) := by
  simp only [opened, hquery] at h
  obtain ⟨storage, hstorage, h⟩ := bind_ok h
  obtain ⟨filename, hpath, h⟩ := bind_ok h
  obtain rfl := Option.some.inj (Except.ok.inj h)
  simp only [get_resource, hquery, hstorage, hpath, lift_ok, bind, Except.bind]
  cases fetch_file disk filename <;> rfl

/-- An upload opens its path for writing, and its answer tells the identifier. -/
theorem put_resource_inv {file : HttpFile} {quid : Cuuid} {random : Bytes}
    {disk disk' : Disk} {reply : Response}
    (h : put_resource app null_text auth (some file) quid random disk = .ok (reply, disk')) :
    ∃ buf path result, identifier quid = .ok buf ∧
      opened app null_text auth (.post file.filename quid) = .ok (some path) ∧
      store_file random file path disk = .ok (result, disk') ∧
      (reply.status = 200 → reply.body = buf.take (QUID_FULLLEN - 2)) := by
  unfold put_resource at h
  obtain ⟨buf, hbuf, h⟩ := bind_ok h
  obtain ⟨uuid, huuid, h⟩ := bind_ok h
  obtain ⟨storage, hstorage, h⟩ := bind_ok h
  obtain ⟨filename, hpath, h⟩ := bind_ok h
  obtain ⟨⟨result, after⟩, hstore, h⟩ := bind_ok h
  have hopened : opened app null_text auth (.post file.filename quid) = .ok (some filename) := by
    simp only [opened, lift_eq_ok.mp hbuf, lift_eq_ok.mp huuid, lift_eq_ok.mp hstorage,
      lift_eq_ok.mp hpath, bind, Except.bind]
    rfl
  obtain ⟨hdisk, hbody⟩ : after = disk' ∧
      (reply.status = 200 → reply.body = buf.take (QUID_FULLLEN - 2)) := by
    dsimp only at h
    split at h
    · obtain ⟨rfl, rfl⟩ := Prod.mk.inj (Except.ok.inj h)
      exact ⟨rfl, fun hok => nomatch hok⟩
    · obtain ⟨rfl, rfl⟩ := Prod.mk.inj (Except.ok.inj h)
      exact ⟨rfl, fun _ => rfl⟩
  subst hdisk
  exact ⟨buf, filename, result, lift_eq_ok.mp hbuf, hopened, lift_eq_ok.mp hstore, hbody⟩

end Opened

/-! ## Identifiers -/

theorem groups_spec {lengths : List ℕ} {text : Bytes} (h : groups lengths text = true)
    (hne : lengths ≠ []) :
    text.length + 1 = lengths.sum + lengths.length ∧ ∀ x ∈ text, is_hex x = true ∨ x = 45 := by
  fun_induction groups lengths text with
  | case1 text => exact absurd rfl hne
  | case2 n text =>
    simp only [Bool.and_eq_true, decide_eq_true_eq, List.all_eq_true] at h
    exact ⟨by simp [h.1], fun x hx => Or.inl (h.2 x hx)⟩
  | case3 n lengths text hmore ih =>
    simp only [Bool.and_eq_true, decide_eq_true_eq, List.all_eq_true] at h
    obtain ⟨⟨⟨hlen, hhex⟩, hdash⟩, hrest⟩ := h
    obtain ⟨hsum, hchars⟩ := ih hrest (fun h0 => by simp_all)
    obtain ⟨hlt, hget⟩ := List.getElem?_eq_some_iff.mp hdash
    have hsplit : text = text.take n ++ 45 :: text.drop (n + 1) := by
      rw [← hget, ← List.drop_eq_getElem_cons hlt, List.take_append_drop]
    constructor
    · rw [List.length_drop] at hsum
      rw [List.sum_cons, List.length_cons]
      omega
    · intro x hx
      rw [hsplit] at hx
      rcases List.mem_append.mp hx with hfront | hbehind
      · exact Or.inl (hhex x hfront)
      · rcases List.mem_cons.mp hbehind with rfl | hx
        · exact Or.inr rfl
        · exact hchars x hx

theorem v_uuid_length {u : Bytes} (h : v_uuid u = true) : u.length = 36 := by
  have hlen := (groups_spec h (by decide)).1
  simp only [List.sum_cons, List.sum_nil, List.length_cons, List.length_nil] at hlen
  omega

theorem v_uuid_plain {u : Bytes} (h : v_uuid u = true) : 0 ∉ u ∧ 47 ∉ u := by
  have hchars := (groups_spec h (by decide)).2
  constructor
  · intro h0
    rcases hchars 0 h0 with hx | hx
    · cases hx
    · cases hx
  · intro h0
    rcases hchars 47 h0 with hx | hx
    · cases hx
    · cases hx

def Braced (text : Bytes) : Prop := ∃ u, v_uuid u = true ∧ text = 123 :: (u ++ [125])

theorem identifier_braced {quid : Cuuid} {u : Bytes} (hu : v_uuid u = true)
    (hquid : quid_tostring quid = 123 :: (u ++ [125])) :
    identifier quid = .ok (u ++ [0, 0]) ∧ cstr (u ++ [0, 0]) 0 = .ok u := by
  have hlen := v_uuid_length hu
  have hstore : store (quid_tostring quid ++ [0]) (QUID_FULLLEN - 1) 0 =
      .ok (123 :: (u ++ [0, 0])) := by
    have h := store_at (123 :: u) 125 [0] 0
    rw [List.length_cons, hlen] at h
    rw [hquid, QUID_FULLLEN]
    simpa using h
  constructor
  · rw [identifier, hstore]
    rfl
  · exact cstr_start [0] (v_uuid_plain hu).1

end ResourceController
