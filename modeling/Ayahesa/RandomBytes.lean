import Ayahesa.AyaFile
import Ayahesa.CompatCopy
import Ayahesa.LoginQuery
import Ayahesa.LoopIteration

/-! # Random bytes

`random_string` reads from a device until its buffer is full or a read fails; its caller does not
learn which. The salt of a password hash and the vector of a file header come from it. -/
namespace RandomBytes

open CMemory CompatCopy LoopIteration AyaFile LoginQuery

/-- Whether a device can be opened, and what its reads find, one after the other; `none` is a
failure. -/
structure Device where
  opened : Bool
  reads : ℕ → Option Bytes

/-- `read` takes no more than it is asked for. It fails on the descriptor of a failed `open`. -/
def Device.read (D : Device) (i count : ℕ) : Option Bytes :=
  if D.opened then (D.reads i).map (List.take count) else none

abbrev Devices := Bytes → Device

structure Filling where
  buffer : Block
  datalen : ℕ
  calls : ℕ
  deriving DecidableEq, Repr

def put (d : Block) (i : ℕ) (data : Bytes) : C Block :=
  if i + data.length ≤ d.length then
    .ok (d.take i ++ (data.map some ++ d.drop (i + data.length)))
  else .error .outOfBounds

def random_body (D : Device) (size : ℕ) (s : Filling) : C (Step Filling) :=
  if s.datalen < size then
    match D.read s.calls (size - s.datalen) with
    | none => .ok (.done s)
    | some data => do
      let buffer ← put s.buffer s.datalen data
      return .next ⟨buffer, s.datalen + data.length, s.calls + 1⟩
  else .ok (.done s)

def device (sys : Devices) (nonblock : Bool) : Device :=
  sys (if nonblock then bytes "/dev/urandom" else bytes "/dev/random")

/-- What is in the buffer afterwards, if the loop ends within a number of rounds. -/
def random_string (sys : Devices) (buffer : Block) (size : ℕ) (nonblock : Bool) (n : ℕ) :
    Option (C Block) :=
  andThen (run (random_body (device sys nonblock) size) n ⟨buffer, 0, 0⟩) fun s =>
  some (.ok s.buffer)

def crypt_password_hash (S : Services) (sys : Devices) (secret : Bytes) (n : ℕ) :
    Option (C (Option Bytes)) :=
  let salt := aya_malloc 16
  andThen (random_string sys salt 16 true n) fun salt =>
  some ((initialised salt).map fun salt =>
    LoginQuery.crypt_password_hash { S with random_string := salt } secret)

def write_header (sys : Devices) (afp : AYAFILE) (n : ℕ) : Option (C AYAFILE) :=
  let iv := (calloc 32).map some
  andThen (random_string sys iv 16 true n) fun iv => some do
    let iv ← initialised iv
    let fp := rewind afp.fp
    let hdr := uint16_t FILE_MAGIC ++ uint16_t 128 ++ iv
    let (_, fp) ← fwrite hdr sizeof_cryptfile 1 fp
    return ⟨fp, true⟩

/-! ## What the device delivers -/

def delivered (D : Device) (size : ℕ) : ℕ → Option Bytes
  | 0 => some []
  | k + 1 => (delivered D size k).bind fun got => (D.read k (size - got.length)).map (got ++ ·)

def Unfailing (D : Device) (size : ℕ) : Prop :=
  ∀ k got, delivered D size k = some got → got.length < size →
    D.read k (size - got.length) ≠ none

def Random (D : Device) (size : ℕ) (got : Bytes) : Prop :=
  got.length = size ∧ ∃ k, delivered D size k = some got

/-- The function returns only with random bytes all over the buffer. -/
def Complete (sys : Devices) (buffer : Block) (size : ℕ) (nonblock : Bool) : Prop :=
  ∀ n r, random_string sys buffer size nonblock n = some r →
    ∃ got, Random (device sys nonblock) size got ∧ r = .ok (got.map some ++ buffer.drop size)

section Loop

variable {D : Device} {size k j : ℕ} {got data : Bytes} {buffer : Block}

theorem read_length {i count : ℕ} (h : D.read i count = some data) : data.length ≤ count := by
  unfold Device.read at h
  split at h
  · obtain ⟨all, -, rfl⟩ := Option.map_eq_some_iff.mp h
    exact List.length_take_le count all
  · cases h

theorem delivered_succ {got' : Bytes} :
    delivered D size (k + 1) = some got' ↔ ∃ got data, delivered D size k = some got ∧
      D.read k (size - got.length) = some data ∧ got' = got ++ data := by
  rw [delivered, Option.bind_eq_some_iff]
  constructor
  · rintro ⟨got, hgot, hread⟩
    obtain ⟨data, hdata, rfl⟩ := Option.map_eq_some_iff.mp hread
    exact ⟨got, data, hgot, hdata, rfl⟩
  · rintro ⟨got, data, hgot, hdata, rfl⟩
    exact ⟨got, hgot, Option.map_eq_some_iff.mpr ⟨data, hdata, rfl⟩⟩

theorem delivered_earlier (hjk : j ≤ k) (h : delivered D size k = some got) :
    ∃ before, delivered D size j = some before ∧ before.length ≤ got.length := by
  induction k generalizing got with
  | zero =>
    obtain rfl := Nat.le_zero.mp hjk
    exact ⟨got, h, Nat.le_refl _⟩
  | succ k ih =>
    rcases Nat.le_or_eq_of_le_succ hjk with hle | rfl
    · obtain ⟨last, data, hlast, -, rfl⟩ := delivered_succ.mp h
      obtain ⟨before, hbefore, hlen⟩ := ih hle hlast
      exact ⟨before, hbefore, by rw [List.length_append]; omega⟩
    · exact ⟨got, h, Nat.le_refl _⟩

/-- Behind a failed read nothing is delivered, so the size is never reached. -/
theorem not_random_of_failed (h : delivered D size k = some got) (hlt : got.length < size)
    (hfailed : D.read k (size - got.length) = none) (all : Bytes) : ¬Random D size all := by
  rintro ⟨hsize, m, hm⟩
  by_cases hmk : m ≤ k
  · obtain ⟨before, hbefore, hlen⟩ := delivered_earlier hmk h
    obtain rfl := Option.some.inj (hm.symm.trans hbefore)
    omega
  · obtain ⟨next, hnext, -⟩ := delivered_earlier (Nat.succ_le_of_lt (Nat.lt_of_not_le hmk)) hm
    obtain ⟨last, data, hlast, hdata, -⟩ := delivered_succ.mp hnext
    obtain rfl := Option.some.inj (h.symm.trans hlast)
    rw [hfailed] at hdata
    cases hdata

def filled (buffer : Block) (got : Bytes) (k : ℕ) : Filling :=
  ⟨got.map some ++ buffer.drop got.length, got.length, k⟩

theorem body_read (hfit : size ≤ buffer.length) (hlt : got.length < size)
    (hread : D.read k (size - got.length) = some data) :
    random_body D size (filled buffer got k) =
      .ok (.next (filled buffer (got ++ data) (k + 1))) := by
  have hlen := read_length hread
  have hput : put (got.map some ++ buffer.drop got.length) got.length data =
      .ok ((got ++ data).map some ++ buffer.drop (got ++ data).length) := by
    rw [put, if_pos (by simp only [List.length_append, List.length_map, List.length_drop]; omega),
      List.take_left' (List.length_map some), List.map_append, List.append_assoc,
      List.length_append, ← List.drop_drop, ← List.drop_drop,
      List.drop_left' (List.length_map some)]
  simp only [random_body, filled, if_pos hlt, hread, hput, bind, Except.bind, List.length_append]
  rfl

theorem body_failed (hlt : got.length < size) (hread : D.read k (size - got.length) = none) :
    random_body D size (filled buffer got k) = .ok (.done (filled buffer got k)) := by
  simp only [random_body, filled, if_pos hlt, hread]

theorem body_full (hfull : size ≤ got.length) :
    random_body D size (filled buffer got k) = .ok (.done (filled buffer got k)) :=
  if_neg (Nat.not_lt.mpr hfull)

def Behind (D : Device) (size : ℕ) (buffer : Block) (s : Filling) : Prop :=
  ∃ k got, delivered D size k = some got ∧ got.length ≤ size ∧ s = filled buffer got k

theorem visits_behind (hfit : size ≤ buffer.length) {s : Filling}
    (h : Visits (random_body D size) (filled buffer [] 0) s) : Behind D size buffer s := by
  have hstart : Behind D size buffer (filled buffer [] 0) := ⟨0, [], rfl, Nat.zero_le size, rfl⟩
  refine visits_invariant ?_ hstart h
  rintro s t ⟨k, got, hgot, hle, rfl⟩ hstep
  by_cases hlt : got.length < size
  · cases hread : D.read k (size - got.length) with
    | none =>
      rw [body_failed hlt hread] at hstep
      cases hstep
    | some data =>
      rw [body_read hfit hlt hread] at hstep
      obtain rfl := Step.next.inj (Except.ok.inj hstep)
      have hlen := read_length hread
      refine ⟨k + 1, got ++ data, delivered_succ.mpr ⟨got, data, hgot, hread, rfl⟩, ?_, rfl⟩
      rw [List.length_append]
      omega
  · rw [body_full (Nat.not_lt.mp hlt)] at hstep
    cases hstep

theorem visits_delivered (hfit : size ≤ buffer.length) (h : delivered D size k = some got)
    (hlt : got.length < size) :
    Visits (random_body D size) (filled buffer [] 0) (filled buffer got k) := by
  induction k generalizing got with
  | zero =>
    obtain rfl := Option.some.inj h
    exact Visits.start
  | succ k ih =>
    obtain ⟨last, data, hlast, hread, rfl⟩ := delivered_succ.mp h
    rw [List.length_append] at hlt
    have hmissing : last.length < size := by omega
    exact (ih hlast hmissing).step (body_read hfit hmissing hread)

theorem returns_filled (hfit : size ≤ buffer.length) {s : Filling}
    (h : Returns (random_body D size) (filled buffer [] 0) s) :
    ∃ k got, delivered D size k = some got ∧ s = filled buffer got k ∧
      (got.length = size ∨ got.length < size ∧ D.read k (size - got.length) = none) := by
  obtain ⟨u, hvisits, hdone⟩ := h.exists_done
  obtain ⟨k, got, hgot, hle, rfl⟩ := visits_behind hfit hvisits
  refine ⟨k, got, hgot, ?_⟩
  by_cases hlt : got.length < size
  · cases hread : D.read k (size - got.length) with
    | none =>
      rw [body_failed hlt hread] at hdone
      exact ⟨(Step.done.inj (Except.ok.inj hdone)).symm, Or.inr ⟨hlt, rfl⟩⟩
    | some data =>
      rw [body_read hfit hlt hread] at hdone
      cases hdone
  · rw [body_full (Nat.not_lt.mp hlt)] at hdone
    exact ⟨(Step.done.inj (Except.ok.inj hdone)).symm, Or.inl (by omega)⟩

theorem run_not_error (hfit : size ≤ buffer.length) (n : ℕ) (e : Fault) :
    run (random_body D size) n (filled buffer [] 0) ≠ some (.error e) := by
  intro h
  obtain ⟨u, hvisits, herror⟩ := run_error_iff.mp ⟨n, h⟩
  obtain ⟨k, got, -, -, rfl⟩ := visits_behind hfit hvisits
  by_cases hlt : got.length < size
  · cases hread : D.read k (size - got.length) with
    | none =>
      rw [body_failed hlt hread] at herror
      cases herror
    | some data =>
      rw [body_read hfit hlt hread] at herror
      cases herror
  · rw [body_full (Nat.not_lt.mp hlt)] at herror
    cases herror

end Loop

section Call

variable {sys : Devices} {buffer : Block} {size k : ℕ} {nonblock : Bool} {got : Bytes}

/-- A call that returns leaves what was delivered; if that is less than the size, a read failed. -/
theorem random_string_returns (hfit : size ≤ buffer.length) {n : ℕ} {r : C Block}
    (h : random_string sys buffer size nonblock n = some r) :
    ∃ k got, delivered (device sys nonblock) size k = some got ∧
      r = .ok (got.map some ++ buffer.drop got.length) ∧
      (got.length = size ∨ got.length < size ∧
        (device sys nonblock).read k (size - got.length) = none) := by
  cases r with
  | error e =>
    rcases andThen_eq_error_iff.mp h with h | ⟨s, -, h⟩
    · exact absurd h (run_not_error hfit n e)
    · cases h
  | ok b =>
    obtain ⟨s, hs, h⟩ := andThen_eq_ok_iff.mp h
    obtain rfl := Except.ok.inj (Option.some.inj h)
    obtain ⟨k, got, hgot, rfl, hend⟩ := returns_filled hfit ⟨n, hs⟩
    exact ⟨k, got, hgot, rfl, hend⟩

theorem random_string_failed (hfit : size ≤ buffer.length)
    (hgot : delivered (device sys nonblock) size k = some got) (hlt : got.length < size)
    (hread : (device sys nonblock).read k (size - got.length) = none) :
    ∃ n, random_string sys buffer size nonblock n =
      some (.ok (got.map some ++ buffer.drop got.length)) := by
  have hleave := Returns.of_done (@body_failed _ _ k got buffer hlt hread)
  obtain ⟨n, hn⟩ := hleave.of_visits (visits_delivered hfit hgot hlt)
  exact ⟨n, andThen_eq_ok_iff.mpr ⟨_, hn, rfl⟩⟩

theorem unfailing_of_random (hfit : size ≤ buffer.length)
    (h : ∀ n (got : Bytes), got.length ≤ size → random_string sys buffer size nonblock n =
        some (.ok (got.map some ++ buffer.drop got.length)) →
      ∃ all, Random (device sys nonblock) size all) : Unfailing (device sys nonblock) size := by
  intro k got hgot hlt hread
  obtain ⟨n, hn⟩ := random_string_failed hfit hgot hlt hread
  obtain ⟨all, hrandom⟩ := h n got (Nat.le_of_lt hlt) hn
  exact not_random_of_failed hgot hlt hread all hrandom

theorem complete_of_unfailing (hfit : size ≤ buffer.length)
    (h : Unfailing (device sys nonblock) size) : Complete sys buffer size nonblock := by
  intro n r hcall
  obtain ⟨k, got, hgot, rfl, hsize | ⟨hlt, hread⟩⟩ := random_string_returns hfit hcall
  · exact ⟨got, ⟨hsize, k, hgot⟩, by rw [hsize]⟩
  · exact absurd hread (h k got hgot hlt)

theorem complete_iff (hfit : size ≤ buffer.length) :
    Complete sys buffer size nonblock ↔ Unfailing (device sys nonblock) size := by
  refine ⟨fun hcomplete => ?_, complete_of_unfailing hfit⟩
  apply unfailing_of_random hfit
  intro n got _ hcall
  obtain ⟨all, hrandom, -⟩ := hcomplete n _ hcall
  exact ⟨all, hrandom⟩

end Call

/-! ## The two callers -/

section Callers

variable {sys : Devices} {S : Services} {secret got : Bytes} {afp : AYAFILE} {n : ℕ}

/-- A hash is made with a salt of random bytes, in every call that returns. -/
def Salted (S : Services) (sys : Devices) (secret : Bytes) : Prop :=
  ∀ n r, crypt_password_hash S sys secret n = some r →
    ∃ salt, Random (device sys true) 16 salt ∧
      r = .ok (LoginQuery.crypt_password_hash { S with random_string := salt } secret)

/-- A header is written with a vector of random bytes, in every call that returns. -/
def Initialised (sys : Devices) (afp : AYAFILE) : Prop :=
  ∀ n r, write_header sys afp n = some r →
    ∃ iv, Random (device sys true) 16 iv ∧ r = AyaFile.write_header iv afp

theorem hash_of_salt {salt : Block}
    (h : random_string sys (aya_malloc 16) 16 true n = some (.ok salt)) :
    crypt_password_hash S sys secret n = some ((initialised salt).map fun salt =>
      LoginQuery.crypt_password_hash { S with random_string := salt } secret) := by
  rw [crypt_password_hash, h]
  rfl

theorem salted_iff : Salted S sys secret ↔ Unfailing (device sys true) 16 := by
  have hfit : 16 ≤ (aya_malloc 16).length := Nat.le_of_eq (aya_malloc_length 16).symm
  constructor
  · intro hsalted
    apply unfailing_of_random hfit
    intro n got _ hcall
    obtain ⟨salt, hrandom, -⟩ := hsalted n _ (hash_of_salt hcall)
    exact ⟨salt, hrandom⟩
  · intro hunfailing n r h
    cases hcall : random_string sys (aya_malloc 16) 16 true n with
    | none => simp [crypt_password_hash, hcall, andThen] at h
    | some called =>
      obtain ⟨salt, hrandom, rfl⟩ := complete_of_unfailing hfit hunfailing n called hcall
      rw [hash_of_salt hcall, aya_malloc, List.drop_replicate, Nat.sub_self, List.replicate_zero,
        List.append_nil, initialised_map] at h
      exact ⟨salt, hrandom, (Option.some.inj h).symm⟩

/-- The vector starts as zeros, and what was delivered stands at its start. -/
theorem header_of_iv (hlen : got.length ≤ 16)
    (h : random_string sys ((calloc 32).map some) 16 true n =
      some (.ok (got.map some ++ ((calloc 32).map some).drop got.length))) :
    write_header sys afp n = some (AyaFile.write_header got afp) := by
  have hiv : got.map some ++ ((calloc 32).map some).drop got.length =
      (got ++ List.replicate (32 - got.length) 0).map some := by
    rw [← List.map_drop, calloc, List.drop_replicate, List.map_append]
  rw [hiv] at h
  rw [write_header, h, AyaFile.write_header, header, List.take_of_length_le hlen]
  simp only [andThen, initialised_map, bind, Except.bind]

theorem initialised_iff : Initialised sys afp ↔ Unfailing (device sys true) 16 := by
  have hfit : 16 ≤ ((calloc 32).map some).length := by decide
  constructor
  · intro hinitialised
    apply unfailing_of_random hfit
    intro n got hlen hcall
    obtain ⟨iv, hrandom, -⟩ := hinitialised n _ (header_of_iv hlen hcall)
    exact ⟨iv, hrandom⟩
  · intro hunfailing n r h
    cases hcall : random_string sys ((calloc 32).map some) 16 true n with
    | none => simp [write_header, hcall, andThen] at h
    | some called =>
      obtain ⟨iv, hrandom, rfl⟩ := complete_of_unfailing hfit hunfailing n called hcall
      refine ⟨iv, hrandom, ?_⟩
      rw [header_of_iv (Nat.le_of_eq hrandom.1) (by rw [hcall, hrandom.1])] at h
      exact (Option.some.inj h).symm

end Callers

/-- The buffer, the salt and the vector are all random exactly where no read fails in time; a
device that cannot be opened fails at once, and one that never delivers keeps the call waiting. -/
theorem random_bytes_iff (S : Services) (sys : Devices) :
    (∀ buffer size nonblock, size ≤ buffer.length →
      (Complete sys buffer size nonblock ↔ Unfailing (device sys nonblock) size)) ∧
    (∀ secret, Salted S sys secret ↔ Unfailing (device sys true) 16) ∧
    ∀ afp, Initialised sys afp ↔ Unfailing (device sys true) 16 :=
  ⟨fun _ _ _ => complete_iff, fun _ => salted_iff, fun _ => initialised_iff⟩

def steady : Devices := fun _ => ⟨true, fun _ => some (bytes "abc")⟩

theorem random_bytes_iff_steady : Complete steady (aya_malloc 16) 16 true := by
  have hunfailing : Unfailing (device steady true) 16 := by
    intro k got _ _ hread
    cases hread
  obtain ⟨hcomplete, -⟩ := random_bytes_iff ⟨false, fun _ _ => none, fun _ _ => false,
    fun _ _ _ _ _ => none, [], fun _ => 0, none⟩ steady
  exact (hcomplete (aya_malloc 16) 16 true (by decide)).mpr hunfailing

/-- No device at all, as in a container without `/dev`. -/
def no_devices : Devices := fun _ => ⟨false, fun _ => none⟩

/-- The function returns at once, and no byte of the salt is set. -/
theorem salt_unset :
    ¬∀ (sys : Devices) (buffer : Block) (size : ℕ) (nonblock : Bool), size ≤ buffer.length →
      Complete sys buffer size nonblock := by
  intro h
  have hcall : random_string no_devices (aya_malloc 16) 16 true 1 = some (.ok (aya_malloc 16)) := by
    decide
  obtain ⟨got, ⟨hlen, k, hgot⟩, hunset⟩ :=
    h no_devices (aya_malloc 16) 16 true (by decide) 1 _ hcall
  have hlast : got ≠ [] := fun hnil => by
    rw [hnil] at hlen
    cases hlen
  obtain ⟨c, rest, rfl⟩ := List.exists_cons_of_ne_nil hlast
  have hhead := congrArg List.head? (Except.ok.inj hunset)
  cases hhead

end RandomBytes
