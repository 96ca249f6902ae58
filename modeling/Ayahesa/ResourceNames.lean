import Ayahesa.ResourceController

/-! # Uploads that cannot be downloaded

The upload takes whatever extension the name of the client has, or prints a NULL. The download
only asks for extensions of one to eight letters, although the table of media types lists
others. -/
namespace ResourceNames

open CMemory HttpRequest AppConfig AyaFile StoredFiles ResourceController
open JwtToken (Cuuid quid_tostring QUID_FULLLEN)

theorem strrchr_none {c : UInt8} {s : Bytes} (h : c ∉ s) : strrchr c s = none := by
  induction s with
  | nil => rfl
  | cons x s ih =>
    have hx : x ≠ c := fun h0 => h (h0 ▸ List.mem_cons_self)
    rw [strrchr, ih fun h0 => h (List.mem_cons_of_mem x h0)]
    exact if_neg hx

theorem strrchr_last {c : UInt8} (base : Bytes) {ext : Bytes} (h : c ∉ ext) :
    strrchr c (base ++ c :: ext) = some base.length := by
  induction base with
  | nil =>
    rw [List.nil_append, strrchr, strrchr_none h]
    exact if_pos rfl
  | cons x base ih =>
    rw [List.cons_append, strrchr, ih]
    rfl

theorem strrchr_cases (c : UInt8) (s : Bytes) :
    (c ∉ s ∧ strrchr c s = none) ∨
    ∃ base ext, s = base ++ c :: ext ∧ c ∉ ext ∧ strrchr c s = some base.length := by
  induction s with
  | nil => exact Or.inl ⟨List.not_mem_nil, rfl⟩
  | cons x s ih =>
    rcases ih with ⟨hnot, hnone⟩ | ⟨base, ext, rfl, hext, hsome⟩
    · by_cases hx : x = c
      · subst hx
        exact Or.inr ⟨[], s, rfl, hnot, strrchr_last [] hnot⟩
      · refine Or.inl ⟨?_, ?_⟩
        · rw [List.mem_cons]
          rintro (h | h)
          · exact hx h.symm
          · exact hnot h
        · rw [strrchr, hnone]
          exact if_neg hx
    · exact Or.inr ⟨x :: base, ext, rfl, hext, strrchr_last (x :: base) hext⟩

theorem file_extension_eq {base ext : Bytes} (hbase : base ≠ []) (h : 46 ∉ ext) :
    file_extension (base ++ 46 :: ext) = some ext := by
  obtain ⟨n, hn⟩ : ∃ n, base.length = n + 1 :=
    ⟨base.length - 1, by have := List.length_pos_of_ne_nil hbase; omega⟩
  have hdrop : (base ++ 46 :: ext).drop (n + 1 + 1) = ext := by
    rw [← hn, List.drop_append, List.drop_eq_nil_of_le (by omega), Nat.add_sub_cancel_left]
    rfl
  rw [file_extension, strrchr_last base h, hn]
  exact congrArg some hdrop

theorem file_extension_inv {filename ext : Bytes} (h : file_extension filename = some ext) :
    ∃ base, filename = base ++ 46 :: ext ∧ base ≠ [] ∧ 46 ∉ ext := by
  rcases strrchr_cases 46 filename with ⟨-, hnone⟩ | ⟨base, tail, rfl, htail, hsome⟩
  · rw [file_extension, hnone] at h
    cases h
  · have hbase : base ≠ [] := by
      rintro rfl
      rw [file_extension, hsome] at h
      cases h
    rw [file_extension_eq hbase htail] at h
    obtain rfl := Option.some.inj h
    exact ⟨base, rfl, hbase, htail⟩

theorem v_extension_iff {ext : Bytes} :
    v_extension ext = true ↔ 1 ≤ ext.length ∧ ext.length ≤ 8 ∧ ∀ c ∈ ext, isalpha c = true := by
  rw [v_extension, validator_file_extension]
  by_cases hlen : ext.length = 0 ∨ ext.length > 8
  · rw [if_pos hlen]
    constructor
    · exact fun h => nomatch h
    · rintro ⟨hpos, hle, -⟩
      omega
  · rw [if_neg hlen, strisalpha, List.all_eq_true]
    constructor
    · exact fun h => ⟨by omega, by omega, h⟩
    · exact fun h => h.2.2

theorem isalpha_plain {c : UInt8} (h : isalpha c = true) : c ≠ 46 ∧ c ≠ 47 ∧ c ≠ 0 := by
  refine ⟨?_, ?_, ?_⟩
  · rintro rfl
    cases h
  · rintro rfl
    cases h
  · rintro rfl
    cases h

theorem get_arguments_pair {uuid ext : Bytes} (hid : v_uuid uuid = true)
    (hext : v_extension ext = true) :
    get_arguments [(bytes "id", uuid), (bytes "ext", ext)] = some (uuid, ext) := by
  have hfilter : http_populate_get [(bytes "id", uuid), (bytes "ext", ext)] =
      [(bytes "id", uuid), (bytes "ext", ext)] := by
    have hfirst : params_get.lookup (bytes "id") = some v_uuid := rfl
    have hsecond : params_get.lookup (bytes "ext") = some v_extension := rfl
    rw [http_populate_get, List.filter_cons_of_pos (by rw [hfirst]; exact hid),
      List.filter_cons_of_pos (by rw [hsecond]; exact hext), List.filter_nil]
  rw [get_arguments, hfilter]
  rfl

/-- A download of the identifier that was answered opens the path that the upload wrote. -/
def Downloadable (app : App) (null_text : Option Bytes) (auth : RequestData) (filename : Bytes)
    (quid : Cuuid) (reply : Response) : Prop :=
  ∃ ext path, file_extension filename = some ext ∧
    v_uuid reply.body = true ∧ v_extension ext = true ∧
    opened app null_text auth (.post filename quid) = .ok (some path) ∧
    ∀ auth' : RequestData, auth'.object_id = auth.object_id →
      opened app null_text auth' (.get [(bytes "id", reply.body), (bytes "ext", ext)]) =
        .ok (some path)

theorem downloadable_iff {app : App} {null_text : Option Bytes} {auth : RequestData}
    {file : HttpFile} {quid : Cuuid} {random : Bytes} {disk disk' : Disk} {reply : Response}
    (hquid : Braced (quid_tostring quid))
    (hput : put_resource app null_text auth (some file) quid random disk = .ok (reply, disk'))
    (hok : reply.status = 200) :
    Downloadable app null_text auth file.filename quid reply ↔
      ∃ base ext, file.filename = base ++ 46 :: ext ∧ base ≠ [] ∧ 1 ≤ ext.length ∧
        ext.length ≤ 8 ∧ ∀ c ∈ ext, isalpha c = true := by
  obtain ⟨u, hu, hquid⟩ := hquid
  obtain ⟨hbuf, huuid⟩ := identifier_braced hu hquid
  obtain ⟨buf, path, result, hbuf', hopened, -, hreply⟩ := put_resource_inv hput
  obtain rfl := Except.ok.inj (hbuf.symm.trans hbuf')
  have hbody : reply.body = u := by
    have hlen : QUID_FULLLEN - 2 = u.length := (v_uuid_length hu).symm
    rw [hreply hok, hlen, List.take_left]
  constructor
  · rintro ⟨ext, path, hext, -, hvalid, -⟩
    obtain ⟨base, hname, hbase, -⟩ := file_extension_inv hext
    exact ⟨base, ext, hname, hbase, v_extension_iff.mp hvalid⟩
  · rintro ⟨base, ext, hname, hbase, hletters⟩
    have hvalid := v_extension_iff.mpr hletters
    have hdot : 46 ∉ ext := fun h0 => (isalpha_plain (hletters.2.2 46 h0)).1 rfl
    have hext : file_extension file.filename = some ext := by
      rw [hname, file_extension_eq hbase hdot]
    refine ⟨ext, path, hext, hbody ▸ hu, hvalid, hopened, ?_⟩
    intro auth' hid
    simp only [opened, hbuf, huuid, hext, bind, Except.bind] at hopened
    have harguments := get_arguments_pair hu hvalid
    rw [opened, hbody, harguments]
    dsimp only
    rw [hid]
    exact hopened

def store_app : App where
  value := bytes "ab-CDEFGH"
  config := ⟨TreeStore.T_FLAG_READONLY, 10,
    some ⟨bytes "storage", .T_STRING (bytes "s")⟩ :: List.replicate 9 none⟩
  cache := TreeStore.fresh 0

def alice : RequestData := ⟨7, some (bytes "alice"), none⟩

def upload (filename : Bytes) : HttpFile where
  filename := filename
  reads := [some (bytes "abc")]
  reads_fit := by
    intro buf hbuf
    obtain rfl := Option.some.inj (List.mem_singleton.mp hbuf)
    decide

theorem reference_braced : Braced (quid_tostring JwtToken.reference_jti) := by
  refine ⟨((quid_tostring JwtToken.reference_jti).drop 1).take 36, ?_, ?_⟩
  · decide
  · decide

theorem downloadable_text : ∃ reply disk',
    put_resource store_app none alice (some (upload (bytes "a.txt"))) JwtToken.reference_jti []
        empty_disk = .ok (reply, disk') ∧
      Downloadable store_app none alice (bytes "a.txt") JwtToken.reference_jti reply := by
  have hput : ∃ reply disk',
      put_resource store_app none alice (some (upload (bytes "a.txt"))) JwtToken.reference_jti []
        empty_disk = .ok (reply, disk') ∧ reply.status = 200 := ⟨_, _, rfl, rfl⟩
  obtain ⟨reply, disk', hput, hok⟩ := hput
  refine ⟨reply, disk', hput, (downloadable_iff reference_braced hput hok).mpr ?_⟩
  have hletters : ∀ c ∈ bytes "txt", isalpha c = true := List.all_eq_true.mp (by decide)
  exact ⟨bytes "a", bytes "txt", rfl, by decide, by decide, by decide, hletters⟩

/-- A video whose media type is in the table. -/
theorem not_downloadable_video :
    ¬∀ (app : App) (null_text : Option Bytes) (auth : RequestData) (file : HttpFile) (quid : Cuuid)
      (random : Bytes) (disk disk' : Disk) (reply : Response), Braced (quid_tostring quid) →
      put_resource app null_text auth (some file) quid random disk = .ok (reply, disk') →
      reply.status = 200 → Downloadable app null_text auth file.filename quid reply := by
  intro h
  have hput : ∃ reply disk',
      put_resource store_app none alice (some (upload (bytes "clip.3gp"))) JwtToken.reference_jti []
        empty_disk = .ok (reply, disk') ∧ reply.status = 200 := ⟨_, _, rfl, rfl⟩
  obtain ⟨reply, disk', hput, hok⟩ := hput
  obtain ⟨ext, path, hext, -, hvalid, -⟩ := h store_app none alice (upload (bytes "clip.3gp"))
    JwtToken.reference_jti [] empty_disk disk' reply reference_braced hput hok
  have hname : file_extension (upload (bytes "clip.3gp")).filename = some (bytes "3gp") := by decide
  obtain rfl := Option.some.inj (hname.symm.trans hext)
  exact absurd hvalid (by decide)

end ResourceNames
