import Ayahesa.ResourceNames

/-! # Which files a principal can reach

The path of a resource carries the object id of its owner, as long as the printed number is the
id, the buffer has room for it and no slash follows. -/
namespace ResourceIsolation

open CMemory HttpRequest AppConfig AppStart TreeStore DecimalText DelimitedFields
  ResourceController ResourceNames
open JwtToken (Cuuid quid_tostring)

/-- The text that every path of a resource should start with. -/
def owned (storage : Bytes) (object_id : ℕ) : Bytes :=
  storage ++ bytes "/app/" ++ digits object_id ++ bytes "-"

/-- Directly inside the directory, under the object id and a dash. -/
def Inside (storage : Bytes) (object_id : ℕ) (path : Bytes) : Prop :=
  ∃ rest, path = owned storage object_id ++ rest ∧ 47 ∉ rest

/-- Two requests stay where they belong and do not meet unless they have the same object id. -/
structure Isolated (storage : Bytes) (id₁ id₂ : ℕ) (path₁ path₂ : Bytes) : Prop where
  first : Inside storage id₁ path₁
  second : Inside storage id₂ path₂
  apart : id₁ ≠ id₂ → path₁ ≠ path₂

/-- What keeps a path in its place: the id is printed as it is, the buffer has room for it, and
no slash stands in the part of the extension that still has room. -/
structure Contained (storage : Bytes) (object_id : ℕ) (ext : Bytes) : Prop where
  id : object_id < 2 ^ 31
  room : (owned storage object_id).length ≤ 255
  plain : 47 ∉ ext.take (255 - (owned storage object_id).length - 37)

def printed_extension (null_text : Option Bytes) : Access → Option Bytes
  | .get query => (get_arguments query).map Prod.snd
  | .post filename _ => (file_extension filename).or null_text

def Formed : Access → Prop
  | .get _ => True
  | .post _ quid => Braced (quid_tostring quid)

theorem digits_plain {n : ℕ} : 45 ∉ digits n ∧ 47 ∉ digits n := by
  constructor
  · intro h
    exact absurd (digits_range h).1 (by decide)
  · intro h
    exact absurd (digits_range h).1 (by decide)

theorem int_of_eq_iff {n : ℕ} : int_of n = n ↔ n < 2 ^ 31 := by
  unfold int_of
  split <;> omega

theorem printed_id {n : ℕ} {rest tail : Bytes}
    (h : decimal (int_of n) ++ 45 :: tail = digits n ++ 45 :: rest) :
    n < 2 ^ 31 ∧ tail = rest := by
  by_cases hneg : int_of n < 0
  · -- a minus sign is no digit
    rw [decimal, if_pos hneg, List.cons_append] at h
    cases hdigits : digits n with
    | nil => exact absurd hdigits (digits_ne_nil n)
    | cons x more =>
      rw [hdigits, List.cons_append] at h
      have hminus : 45 ∈ digits n := by
        rw [hdigits, ← List.head_eq_of_cons_eq h]
        exact List.mem_cons_self
      exact absurd hminus digits_plain.1
  · rw [decimal, if_neg hneg] at h
    obtain ⟨hsame, hrest⟩ := front_unique digits_plain.1 digits_plain.1 h
    have hid := digits_injective hsame
    exact ⟨int_of_eq_iff.mp (by omega), hrest⟩

theorem Inside.owner {storage path : Bytes} {i j : ℕ} (hi : Inside storage i path)
    (hj : Inside storage j path) : i = j := by
  obtain ⟨r, hr, -⟩ := hi
  obtain ⟨s, hs, -⟩ := hj
  have hdash : bytes "-" = [45] := by decide
  have hsame : digits i ++ 45 :: r = digits j ++ 45 :: s := by
    have h := hr.symm.trans hs
    simp only [owned, List.append_assoc, hdash] at h
    exact List.append_cancel_left (List.append_cancel_left h)
  exact digits_injective (front_unique digits_plain.1 digits_plain.1 hsame).1

theorem slash_in_tail {uuid ext : Bytes} (hlen : uuid.length = 36) (hplain : 47 ∉ uuid) (n : ℕ) :
    47 ∈ (uuid ++ bytes "." ++ ext).take n ↔ 47 ∈ ext.take (n - 37) := by
  have hdot : bytes "." = [46] := by decide
  have hfront : 47 ∉ (uuid ++ [46]).take n := by
    intro h
    rcases List.mem_append.mp (List.mem_of_mem_take h) with h | h
    · exact hplain h
    · exact absurd h (by decide)
  rw [hdot, List.take_append, List.mem_append, List.length_append, hlen]
  exact or_iff_right hfront

theorem path_of_owner {storage tail : Bytes} {object_id : ℕ} (hid : object_id < 2 ^ 31)
    (hroom : (owned storage object_id).length ≤ 255) :
    snprintf 256 (storage ++ bytes "/app/" ++ decimal (int_of object_id) ++ bytes "-" ++ tail) =
      owned storage object_id ++ tail.take (255 - (owned storage object_id).length) := by
  have hprint : decimal (int_of object_id) = digits object_id := by
    rw [int_of_eq_iff.mpr hid, decimal, if_neg (Int.not_lt.mpr (Int.natCast_nonneg _)),
      Int.natAbs_natCast]
  rw [hprint, ← owned, snprintf, List.take_append, List.take_of_length_le hroom]

/-- A path inside the directory tells what was printed. -/
theorem owner_of_inside {storage tail : Bytes} {object_id : ℕ}
    (h : Inside storage object_id (snprintf 256 (storage ++ bytes "/app/" ++
      decimal (int_of object_id) ++ bytes "-" ++ tail))) :
    object_id < 2 ^ 31 ∧ (owned storage object_id).length ≤ 255 := by
  obtain ⟨rest, hpath, -⟩ := h
  have hdash : bytes "-" = [45] := by decide
  constructor
  · have hwhole := List.take_append_drop 255
      (storage ++ bytes "/app/" ++ decimal (int_of object_id) ++ bytes "-" ++ tail)
    rw [snprintf] at hpath
    rw [hpath] at hwhole
    simp only [owned, List.append_assoc, hdash] at hwhole
    have hsame := List.append_cancel_left (List.append_cancel_left hwhole)
    exact (printed_id hsame.symm).1
  · have hlength := congrArg List.length hpath
    have hcut : (snprintf 256 (storage ++ bytes "/app/" ++ decimal (int_of object_id) ++
      bytes "-" ++ tail)).length ≤ 255 := List.length_take_le 255 _
    rw [List.length_append] at hlength
    omega

theorem inside_iff {storage uuid ext : Bytes} {object_id : ℕ} (hlen : uuid.length = 36)
    (hplain : 47 ∉ uuid) :
    Inside storage object_id (snprintf 256 (storage ++ bytes "/app/" ++
      decimal (int_of object_id) ++ bytes "-" ++ (uuid ++ bytes "." ++ ext))) ↔
      Contained storage object_id ext := by
  constructor
  · intro h
    obtain ⟨hid, hroom⟩ := owner_of_inside h
    refine ⟨hid, hroom, ?_⟩
    obtain ⟨rest, hpath, hrest⟩ := h
    rw [path_of_owner hid hroom] at hpath
    rw [← slash_in_tail hlen hplain, List.append_cancel_left hpath]
    exact hrest
  · rintro ⟨hid, hroom, hslash⟩
    refine ⟨_, path_of_owner hid hroom, ?_⟩
    rw [slash_in_tail hlen hplain]
    exact hslash

/-! ## The paths of requests -/

theorem lookup_mem {key value : Bytes} {arguments : List (Bytes × Bytes)}
    (h : arguments.lookup key = some value) : (key, value) ∈ arguments := by
  obtain ⟨front, behind, rfl, -⟩ := List.lookup_eq_some_iff.mp h
  exact List.mem_append_right _ List.mem_cons_self

theorem get_arguments_valid {query : List (Bytes × Bytes)} {uuid ext : Bytes}
    (h : get_arguments query = some (uuid, ext)) : v_uuid uuid = true ∧ v_extension ext = true := by
  obtain ⟨u, hu, h⟩ := Option.bind_eq_some_iff.mp h
  obtain ⟨e, he, h⟩ := Option.bind_eq_some_iff.mp h
  obtain ⟨rfl, rfl⟩ := Prod.mk.inj (Option.some.inj h)
  have hfirst : params_get.lookup (bytes "id") = some v_uuid := rfl
  have hsecond : params_get.lookup (bytes "ext") = some v_extension := rfl
  have hid := (List.mem_filter.mp (lookup_mem hu)).2
  have hext := (List.mem_filter.mp (lookup_mem he)).2
  rw [hfirst] at hid
  rw [hsecond] at hext
  exact ⟨hid, hext⟩

theorem resource_path_eq {null_text storage ext : Option Bytes} {S path uuid : Bytes}
    {object_id : ℕ} (hS : format_string null_text storage = .ok S)
    (h : resource_path null_text storage object_id uuid ext = .ok path) :
    ∃ text, ext.or null_text = some text ∧
      path = snprintf 256 (S ++ bytes "/app/" ++ decimal (int_of object_id) ++ bytes "-" ++
        (uuid ++ bytes "." ++ text)) := by
  obtain ⟨S', hS', h⟩ := bind_ok h
  obtain ⟨text, htext, h⟩ := bind_ok h
  obtain rfl := Except.ok.inj (hS.symm.trans hS')
  obtain rfl := Except.ok.inj h
  refine ⟨text, ?_, ?_⟩
  · exact format_string_ok.mp htext
  · simp only [List.append_assoc]

section Requests

variable {app : App} {null_text storage : Option Bytes} {S : Bytes}

theorem opened_path {auth : RequestData} {access : Access} {path : Bytes}
    (hstorage : app_storage app = .ok storage) (hS : format_string null_text storage = .ok S)
    (hformed : Formed access) (h : opened app null_text auth access = .ok (some path)) :
    ∃ ext, printed_extension null_text access = some ext ∧
      (Inside S auth.object_id path ↔ Contained S auth.object_id ext) := by
  cases access with
  | get query =>
    unfold opened at h
    dsimp only at h
    split at h
    · cases h
    next uuid ext harguments =>
      obtain ⟨storage', hstorage', h⟩ := bind_ok h
      obtain ⟨filename, hpath, h⟩ := bind_ok h
      obtain rfl := Option.some.inj (Except.ok.inj h)
      obtain rfl := Except.ok.inj (hstorage.symm.trans hstorage')
      obtain ⟨text, htext, rfl⟩ := resource_path_eq hS hpath
      obtain rfl : ext = text := Option.some.inj htext
      have huuid := (get_arguments_valid harguments).1
      refine ⟨ext, ?_, inside_iff (v_uuid_length huuid) (v_uuid_plain huuid).2⟩
      rw [printed_extension, harguments]
      rfl
  | post name quid =>
    obtain ⟨u, hu, hquid⟩ := hformed
    obtain ⟨hbuf, huuid⟩ := identifier_braced hu hquid
    unfold opened at h
    obtain ⟨buf, hbuf', h⟩ := bind_ok h
    obtain rfl := Except.ok.inj (hbuf.symm.trans hbuf')
    obtain ⟨uuid, huuid', h⟩ := bind_ok h
    obtain rfl := Except.ok.inj (huuid.symm.trans huuid')
    obtain ⟨storage', hstorage', h⟩ := bind_ok h
    obtain ⟨filename, hpath, h⟩ := bind_ok h
    obtain rfl := Option.some.inj (Except.ok.inj h)
    obtain rfl := Except.ok.inj (hstorage.symm.trans hstorage')
    obtain ⟨text, htext, rfl⟩ := resource_path_eq hS hpath
    exact ⟨text, htext, inside_iff (v_uuid_length hu) (v_uuid_plain hu).2⟩

theorem isolated_iff {auth₁ auth₂ : RequestData} {access₁ access₂ : Access} {path₁ path₂ : Bytes}
    (hstorage : app_storage app = .ok storage) (hS : format_string null_text storage = .ok S)
    (hformed₁ : Formed access₁) (hformed₂ : Formed access₂)
    (h₁ : opened app null_text auth₁ access₁ = .ok (some path₁))
    (h₂ : opened app null_text auth₂ access₂ = .ok (some path₂)) :
    Isolated S auth₁.object_id auth₂.object_id path₁ path₂ ↔
      (∀ ext, printed_extension null_text access₁ = some ext →
        Contained S auth₁.object_id ext) ∧
      ∀ ext, printed_extension null_text access₂ = some ext →
        Contained S auth₂.object_id ext := by
  obtain ⟨ext₁, hext₁, hinside₁⟩ := opened_path hstorage hS hformed₁ h₁
  obtain ⟨ext₂, hext₂, hinside₂⟩ := opened_path hstorage hS hformed₂ h₂
  constructor
  · intro h
    constructor
    · intro ext hext
      obtain rfl := Option.some.inj (hext₁.symm.trans hext)
      exact hinside₁.mp h.first
    · intro ext hext
      obtain rfl := Option.some.inj (hext₂.symm.trans hext)
      exact hinside₂.mp h.second
  · rintro ⟨hfirst, hsecond⟩
    have hin₁ := hinside₁.mpr (hfirst ext₁ hext₁)
    have hin₂ := hinside₂.mpr (hsecond ext₂ hext₂)
    refine ⟨hin₁, hin₂, ?_⟩
    rintro hne rfl
    exact hne (hin₁.owner hin₂)

end Requests

def bob : RequestData := ⟨8, some (bytes "bob"), none⟩

theorem reference_formed (filename : Bytes) : Formed (.post filename JwtToken.reference_jti) :=
  reference_braced

theorem isolated_text : ∃ path₁ path₂,
    opened store_app none alice (.post (bytes "a.txt") JwtToken.reference_jti) =
        .ok (some path₁) ∧
      opened store_app none bob (.post (bytes "b.txt") JwtToken.reference_jti) =
        .ok (some path₂) ∧
      Isolated (bytes "s") 7 8 path₁ path₂ := by
  have hopened : ∃ path₁ path₂,
      opened store_app none alice (.post (bytes "a.txt") JwtToken.reference_jti) =
          .ok (some path₁) ∧
        opened store_app none bob (.post (bytes "b.txt") JwtToken.reference_jti) =
          .ok (some path₂) := ⟨_, _, rfl, rfl⟩
  obtain ⟨path₁, path₂, h₁, h₂⟩ := hopened
  have hstorage : app_storage store_app = .ok (some (bytes "s")) := by decide
  refine ⟨path₁, path₂, h₁, h₂, ?_⟩
  apply (isolated_iff hstorage rfl (reference_formed _) (reference_formed _) h₁ h₂).mpr
  constructor
  · intro ext hext
    have hprinted : printed_extension none (.post (bytes "a.txt") JwtToken.reference_jti) =
        some (bytes "txt") := by decide
    obtain rfl := Option.some.inj (hprinted.symm.trans hext)
    exact ⟨by decide, by decide, by decide⟩
  · intro ext hext
    have hprinted : printed_extension none (.post (bytes "b.txt") JwtToken.reference_jti) =
        some (bytes "txt") := by decide
    obtain rfl := Option.some.inj (hprinted.symm.trans hext)
    exact ⟨by decide, by decide, by decide⟩

/-- A slash behind the last dot leads into another directory. -/
theorem not_isolated_slash :
    ¬∀ (app : App) (null_text storage : Option Bytes) (S : Bytes) (auth₁ auth₂ : RequestData)
      (access₁ access₂ : Access) (path₁ path₂ : Bytes), app_storage app = .ok storage →
      format_string null_text storage = .ok S → Formed access₁ → Formed access₂ →
      opened app null_text auth₁ access₁ = .ok (some path₁) →
      opened app null_text auth₂ access₂ = .ok (some path₂) →
      Isolated S auth₁.object_id auth₂.object_id path₁ path₂ := by
  intro h
  have hopened : ∃ path,
      opened store_app none alice (.post (bytes "x./up") JwtToken.reference_jti) =
        .ok (some path) ∧ path = owned (bytes "s") 7 ++ path.drop 8 ∧ 47 ∈ path.drop 8 := by
    refine ⟨_, rfl, ?_, ?_⟩
    · decide
    · decide
  obtain ⟨path, hpath, hsplit, hslash⟩ := hopened
  have hstorage : app_storage store_app = .ok (some (bytes "s")) := by decide
  obtain ⟨⟨rest, hrest, hplain⟩, -, -⟩ := h store_app none (some (bytes "s")) (bytes "s") alice
    alice (.post (bytes "x./up") JwtToken.reference_jti)
    (.post (bytes "x./up") JwtToken.reference_jti) path path hstorage rfl (reference_formed _)
    (reference_formed _) hpath hpath
  have hsame : path.drop 8 = rest := List.append_cancel_left (hsplit.symm.trans hrest)
  exact hplain (hsame ▸ hslash)

end ResourceIsolation
