import Ayahesa.StoredFiles

/-! # What a download holds

The size is taken from the length of the file before its header is read, and what comes of the
reading is not looked at. -/
namespace FetchedFiles

open CMemory AyaFile StoredFiles

def ValidHeader (content : Bytes) : Prop :=
  sizeof_cryptfile ≤ content.length ∧ magic content = FILE_MAGIC

instance (content : Bytes) : Decidable (ValidHeader content) :=
  inferInstanceAs (Decidable (_ ∧ _))

inductive Faithful : Option Bytes → Option (Bytes × ℕ) → Prop where
  | refused (file : Option Bytes) : Faithful file none
  | empty : Faithful (some []) (some ([], 0))
  | data {content : Bytes} (h : ValidHeader content) :
      Faithful (some content)
        (some (content.drop sizeof_cryptfile, content.length - sizeof_cryptfile))

theorem Faithful.inv {content data : Bytes} {size : ℕ}
    (h : Faithful (some content) (some (data, size))) : content = [] ∨ ValidHeader content := by
  cases h with
  | empty => exact Or.inl rfl
  | data h => exact Or.inr h

/-- The size that is computed for an opened file is at most its length. -/
def Sized (disk : Disk) (filename : Bytes) : Prop :=
  ∀ fp, afopen disk filename .rb = some fp → (afsize fp).1 ≤ fp.fp.stream.content.length

section Fetch

variable {disk : Disk} {filename content : Bytes}

theorem sized_of_content (hfile : disk.files filename = some content)
    (hfits : content.length ≤ MAX_FILE) (h : content = [] ∨ sizeof_cryptfile ≤ content.length) :
    Sized disk filename := by
  intro fp hopen
  obtain ⟨file, hfresh, hcontent⟩ := afopen_content hfile
  obtain rfl := Option.some.inj (hfresh.symm.trans hopen)
  rw [hcontent]
  rcases h with rfl | hlong
  · rw [@afsize_empty ⟨file, false⟩ hcontent]
    exact Nat.le_refl 0
  · have hsplit : file.stream.content =
        content.take sizeof_cryptfile ++ content.drop sizeof_cryptfile := by
      rw [hcontent, List.take_append_drop]
    rw [@afsize_eq _ _ ⟨file, false⟩ (List.length_take_of_le hlong) hsplit (hcontent ▸ hfits),
      List.length_drop]
    exact Nat.sub_le _ _

theorem sized_of_absent (hfile : disk.files filename = none) : Sized disk filename := by
  intro fp hopen
  rw [afopen, fopen, hfile] at hopen
  cases hopen

end Fetch

/-- A file is refused or faithfully read if and only if there is none of that name, or it is
empty, or it starts with a whole header of the right magic. -/
theorem fetch_file_faithful_iff (disk : Disk) (filename : Bytes)
    (hfits : ∀ content, disk.files filename = some content → content.length ≤ MAX_FILE) :
    (Sized disk filename ∧
        ∃ r, fetch_file disk filename = .ok r ∧ Faithful (disk.files filename) r) ↔
      ∀ content, disk.files filename = some content → content = [] ∨ ValidHeader content := by
  cases hfile : disk.files filename with
  | none =>
    refine iff_of_true ⟨sized_of_absent hfile, none, fetch_file_absent hfile, .refused none⟩ ?_
    exact fun _ h => nomatch h
  | some content =>
    have hfits := hfits content hfile
    have hone : (∀ c, some content = some c → c = [] ∨ ValidHeader c) ↔
        content = [] ∨ ValidHeader content := by
      constructor
      · exact fun h => h content rfl
      · rintro h c hc
        obtain rfl := Option.some.inj hc
        exact h
    rw [hone]
    constructor
    · rintro ⟨-, r, hr, hfaithful⟩
      by_cases hempty : content = []
      · exact Or.inl hempty
      · by_cases hshort : content.length < sizeof_cryptfile
        · rw [fetch_file_short hfile hempty hshort] at hr
          cases hr
        · rw [fetch_file_content hfile (by omega) hfits] at hr
          obtain rfl := Except.ok.inj hr
          exact hfaithful.inv
    · rintro (rfl | hvalid)
      · exact ⟨sized_of_content hfile hfits (Or.inl rfl), _, fetch_file_empty hfile, .empty⟩
      · refine ⟨sized_of_content hfile hfits (Or.inr hvalid.1), _,
          fetch_file_content hfile hvalid.1 hfits, ?_⟩
        rw [if_pos hvalid.2]
        exact .data hvalid

def one_file (content : Bytes) : Disk where
  files path := if path = bytes "f" then some content else none
  writable _ := false
  limits := []
  short := false

theorem fetch_file_faithful_iff_header : Sized (one_file (header [1] ++ [65])) (bytes "f") ∧
    ∃ r, fetch_file (one_file (header [1] ++ [65])) (bytes "f") = .ok r ∧
      Faithful ((one_file (header [1] ++ [65])).files (bytes "f")) r := by
  have hfits : ∀ content, (one_file (header [1] ++ [65])).files (bytes "f") = some content →
      content.length ≤ MAX_FILE := by
    intro content hfile
    obtain rfl := Option.some.inj hfile
    decide
  apply (fetch_file_faithful_iff (one_file (header [1] ++ [65])) (bytes "f") hfits).mpr
  intro content hfile
  obtain rfl := Option.some.inj hfile
  exact Or.inr (by decide)

/-- A file of another program: 36 bytes and one more, without the magic. -/
def foreign_file : Bytes := List.replicate 37 65

/-- A NUL is returned that is not in the file. -/
theorem foreign_read :
    ¬∀ (disk : Disk) (filename : Bytes),
      (∀ content, disk.files filename = some content → content.length ≤ MAX_FILE) →
      Sized disk filename ∧
        ∃ r, fetch_file disk filename = .ok r ∧ Faithful (disk.files filename) r := by
  intro h
  have hfile : (one_file foreign_file).files (bytes "f") = some foreign_file := rfl
  obtain ⟨-, r, hr, hfaithful⟩ := h (one_file foreign_file) (bytes "f") (by
    intro content hcontent
    obtain rfl := Option.some.inj hcontent
    decide)
  rw [fetch_file_content hfile (by decide) (by decide), if_neg (by decide)] at hr
  obtain rfl := Except.ok.inj hr
  rw [hfile] at hfaithful
  rcases hfaithful.inv with hempty | hvalid
  · exact absurd hempty (by decide)
  · exact absurd hvalid (by decide)

end FetchedFiles
