import Ayahesa.HexNumerals
import Ayahesa.QuidIdentifier

/-! # Identifiers as text

`quid_tostring` prints the fields in hexadecimal between braces and dashes. `quid_parse` strips
a text in place, and takes it if it has the right length, only digits and a known version. -/
namespace QuidText

open CMemory JwtToken QuidIdentifier HexNumerals
open CompatStrings (tolower)

/-! ## Parsing -/

def QUID_LEN : ℕ := 32

def special (c : UInt8) : Bool := c = 45 || c = 123 || c = 125 || c = 32

def stripLoop : ℕ → Bytes → ℕ → ℕ → C Bytes
  | 0, _, _, _ => .error .outOfBounds
  | fuel + 1, s, pr, pw => do
    let c ← load s pr
    if c = 0 then store s pw 0
    else
      let s ← store s pw c
      stripLoop fuel s (pr + 1) (if special c then pw else pw + 1)

def strip_special_chars (s : Bytes) : C Bytes := stripLoop s.length s 0 0

/-- `strtol` in base 16 of a text that has digits only. -/
def octets (str : Bytes) (i n : ℕ) : ℕ := value ((str.drop i).take n)

def strtoquid (str : Bytes) (u : Quid) : Quid :=
  { u with
    time_low := (octets str 0 8).toUInt64
    time_mid := (octets str 8 4).toUInt16
    time_hi_and_version := (octets str 12 4).toUInt16
    clock_seq_hi_and_reserved := (octets str 16 2).toUInt8
    clock_seq_low := (octets str 18 2).toUInt8
    node := #v[(octets str 20 2).toUInt8, (octets str 22 2).toUInt8, (octets str 24 2).toUInt8,
      (octets str 26 2).toUInt8, (octets str 28 2).toUInt8, (octets str 30 2).toUInt8] }

def quid_validate (cuuid : Quid) : Bool × Quid :=
  if cuuid.time_hi_and_version &&& VERSION_REV7 = VERSION_REV7 then
    (filled cuuid.toCuuid, { cuuid with version := QUID_REV7 })
  else if cuuid.time_hi_and_version &&& VERSION_REV4 = VERSION_REV4 then
    (filled cuuid.toCuuid, { cuuid with version := QUID_REV4 })
  else (false, cuuid)

/-- The verdict, the stripped text in its buffer, and the identifier. -/
def quid_parse (quid : Bytes) (cuuid : Quid) : C (Bool × Bytes × Quid) := do
  let quid ← strip_special_chars quid
  let str ← cstr quid 0
  if str.length ≠ QUID_LEN ∨ ¬str.all isxdigit then return (false, quid, cuuid)
  else
    let (genuine, cuuid) := quid_validate (strtoquid str cuuid)
    return (genuine, quid, cuuid)

/-! ## Stripping -/

def plain (text : Bytes) : Bytes := text.filter fun c => !special c

/-- One turn of the loop: a character is read behind `passed` and written in front of it. -/
theorem strip_step (kept passed : Bytes) (c : UInt8) (behind : Bytes) : ∃ passed',
    passed'.length = passed.length ∧
    load (kept ++ (passed ++ c :: behind)) (kept.length + passed.length) = .ok c ∧
    store (kept ++ (passed ++ c :: behind)) kept.length c =
      .ok (kept ++ c :: (passed' ++ behind)) := by
  obtain ⟨x, tail, htail⟩ := List.exists_cons_of_ne_nil (List.concat_ne_nil c passed)
  have hlen := congrArg List.length htail
  rw [List.length_append, List.length_singleton, List.length_cons] at hlen
  refine ⟨tail, by omega, ?_, ?_⟩
  · rw [← List.append_assoc, ← List.length_append]
    exact load_at (kept ++ passed) c behind
  · have hmemory : kept ++ (passed ++ c :: behind) = kept ++ x :: (tail ++ behind) := by
      rw [List.append_cons passed, htail, List.cons_append]
    rw [hmemory]
    exact store_at kept x (tail ++ behind) c

/-- Between the two pointers stands what was read and not kept. -/
theorem stripLoop_eq {rest : Bytes} (right : Bytes) (h0 : 0 ∉ rest) {fuel : ℕ}
    (hfuel : rest.length < fuel) (kept passed : Bytes) : ∃ behind,
    stripLoop fuel (kept ++ (passed ++ (rest ++ 0 :: right))) (kept.length + passed.length)
      kept.length = .ok (kept ++ plain rest ++ 0 :: behind) := by
  induction rest generalizing kept passed fuel with
  | nil =>
    obtain ⟨fuel, rfl⟩ := Nat.exists_eq_succ_of_ne_zero (Nat.ne_of_gt hfuel)
    obtain ⟨passed', -, hload, hstore⟩ := strip_step kept passed 0 right
    refine ⟨passed' ++ right, ?_⟩
    rw [List.nil_append, stripLoop, hload]
    simp only [bind, Except.bind, if_true, hstore, plain, List.filter_nil, List.append_nil]
  | cons c rest ih =>
    obtain ⟨fuel, rfl⟩ := Nat.exists_eq_succ_of_ne_zero (Nat.ne_of_gt (Nat.zero_lt_of_lt hfuel))
    have hc : c ≠ 0 := fun h => h0 (h ▸ List.mem_cons_self)
    have hrest : 0 ∉ rest := fun h => h0 (List.mem_cons_of_mem c h)
    obtain ⟨passed', hlen, hload, hstore⟩ := strip_step kept passed c (rest ++ 0 :: right)
    have hfuel' : rest.length < fuel := Nat.lt_of_succ_lt_succ hfuel
    rw [List.cons_append, stripLoop, hload]
    simp only [bind, Except.bind, if_neg hc, hstore]
    cases hspecial : special c with
    | true =>
      obtain ⟨behind, hih⟩ := ih hrest hfuel' kept (c :: passed')
      refine ⟨behind, ?_⟩
      rw [List.length_cons, hlen, ← Nat.add_assoc, List.cons_append] at hih
      rw [if_pos rfl, hih, plain, plain, List.filter_cons_of_neg (by rw [hspecial]; decide)]
    | false =>
      obtain ⟨behind, hih⟩ := ih hrest hfuel' (kept ++ [c]) passed'
      refine ⟨behind, ?_⟩
      rw [List.length_append, List.length_singleton, hlen, Nat.add_right_comm,
        ← List.append_cons] at hih
      rw [if_neg (by decide), hih, plain, plain, List.filter_cons_of_pos (by rw [hspecial]; decide),
        ← List.append_cons]

theorem strip_special_chars_eq {text : Bytes} (right : Bytes) (h0 : 0 ∉ text) : ∃ behind,
    strip_special_chars (text ++ 0 :: right) = .ok (plain text ++ 0 :: behind) := by
  have hfuel : text.length < (text ++ 0 :: right).length := by
    rw [List.length_append, List.length_cons]
    omega
  exact stripLoop_eq right h0 hfuel [] []

theorem quid_parse_eq {text : Bytes} (right : Bytes) (h0 : 0 ∉ text) (cuuid : Quid) : ∃ behind,
    quid_parse (text ++ 0 :: right) cuuid = .ok
      (if (plain text).length ≠ QUID_LEN ∨ ¬(plain text).all isxdigit then
        (false, plain text ++ 0 :: behind, cuuid)
      else
        ((quid_validate (strtoquid (plain text) cuuid)).1, plain text ++ 0 :: behind,
          (quid_validate (strtoquid (plain text) cuuid)).2)) := by
  obtain ⟨behind, hstrip⟩ := strip_special_chars_eq right h0
  have hplain : 0 ∉ plain text := fun h => h0 (List.mem_of_mem_filter h)
  refine ⟨behind, ?_⟩
  simp only [quid_parse, hstrip, cstr_start behind hplain, bind, Except.bind, pure, Except.pure]
  split
  · rfl
  · rfl

/-! ## Printing -/

theorem leftpad_snoc (p : ℕ) (l : Bytes) (x : UInt8) :
    (l ++ [x]).leftpad (p + 1) 48 = l.leftpad p 48 ++ [x] := by
  rw [List.leftpad, List.leftpad, List.length_append, List.length_singleton,
    Nat.add_sub_add_right, List.append_assoc]

theorem digitChar_hexDigit : ∀ d < 16, (Nat.digitChar d).toNat.toUInt8 = hexDigit d := by decide

theorem hex_numeral {p n : ℕ} (hp : 0 < p) (h : n < 16 ^ p) : hex p n = numeral p n := by
  induction p generalizing n with
  | zero => exact absurd hp (Nat.lt_irrefl 0)
  | succ p ih =>
    have hlast := digitChar_hexDigit (n % 16) (Nat.mod_lt n (by decide))
    by_cases hn : n < 16
    · have hzero : ∀ k, numeral k 0 = List.replicate k 48 := by
        intro k
        induction k with
        | zero => rfl
        | succ k ihk => rw [numeral, Nat.zero_div, ihk, List.replicate_succ']; rfl
      rw [hex, Nat.toDigits_of_lt_base hn, List.map_singleton, numeral, Nat.div_eq_of_lt hn, hzero,
        ← hlast, Nat.mod_eq_of_lt hn]
      rfl
    · have hge : 16 ≤ n := Nat.le_of_not_lt hn
      have hquot : n / 16 < 16 ^ p := by
        rw [Nat.pow_succ'] at h
        exact Nat.div_lt_of_lt_mul h
      have hp0 : 0 < p := by
        rcases Nat.eq_zero_or_pos p with rfl | hpos
        · omega
        · exact hpos
      rw [hex, Nat.toDigits_of_base_le (by decide) hge, List.map_append, List.map_singleton,
        leftpad_snoc, numeral, ← ih hp0 hquot, hlast, hex]

def widths : List ℕ := [8, 4, 4, 2, 2, 2, 2, 2, 2, 2, 2]

theorem fields_fit {u : Cuuid} (h : u.time_low.toNat < 2 ^ 32) : Fit widths (fields u) := by
  have hbyte : ∀ b : UInt8, b.toNat < 16 ^ 2 := fun b => b.toNat_lt
  have hshort : ∀ b : UInt16, b.toNat < 16 ^ 4 := fun b => b.toNat_lt
  exact .cons h (.cons (hshort _) (.cons (hshort _) (.cons (hbyte _) (.cons (hbyte _)
    (.cons (hbyte _) (.cons (hbyte _) (.cons (hbyte _) (.cons (hbyte _) (.cons (hbyte _)
      (.cons (hbyte _) .nil))))))))))

theorem fields_injective {u v : Cuuid} (h : fields u = fields v) : u = v := by
  simp only [fields, List.cons.injEq, UInt64.toNat_inj, UInt16.toNat_inj, UInt8.toNat_inj] at h
  obtain ⟨hlow, hmid, hhi, hseq_hi, hseq_low, h₀, h₁, h₂, h₃, h₄, h₅, -⟩ := h
  have hnode : u.node = v.node := by
    apply Vector.toList_inj.mp
    rw [node_toList, node_toList, h₀, h₁, h₂, h₃, h₄, h₅]
  cases u
  cases v
  simp only at hlow hmid hhi hseq_hi hseq_low hnode
  rw [hlow, hmid, hhi, hseq_hi, hseq_low, hnode]

def dashed (u : Cuuid) : Bytes :=
  numeral 8 u.time_low.toNat ++ 45 :: (numeral 4 u.time_mid.toNat ++ 45 ::
    (numeral 4 u.time_hi_and_version.toNat ++ 45 ::
      (numeral 2 u.clock_seq_hi_and_reserved.toNat ++ numeral 2 u.clock_seq_low.toNat ++ 45 ::
        (u.node.toList.map fun b => numeral 2 b.toNat).flatten)))

theorem dashed_length (u : Cuuid) : (dashed u).length = 36 := by
  simp only [dashed, node_toList, List.length_append, List.length_cons, List.length_nil,
    numeral_length, List.map_cons, List.map_nil, List.flatten_cons, List.flatten_nil]

theorem quid_tostring_eq {u : Cuuid} (h : u.time_low.toNat < 2 ^ 32) :
    quid_tostring u = 123 :: (dashed u ++ [125]) := by
  have hbyte : ∀ b : UInt8, hex 2 b.toNat = numeral 2 b.toNat :=
    fun b => hex_numeral (by decide) b.toNat_lt
  have hshort : ∀ b : UInt16, hex 4 b.toNat = numeral 4 b.toNat :=
    fun b => hex_numeral (by decide) b.toNat_lt
  have hlow : hex 8 u.time_low.toNat = numeral 8 u.time_low.toNat := hex_numeral (by decide) h
  have hopen : bytes "\x7b" = [123] := by decide
  have hclose : bytes "\x7d" = [125] := by decide
  have hdash : bytes "-" = [45] := by decide
  have htext : (123 :: (dashed u ++ [125])).length = QUID_FULLLEN := by
    rw [List.length_cons, List.length_append, dashed_length]
    rfl
  rw [← List.take_of_length_le (Nat.le_of_eq htext)]
  simp only [quid_tostring, hbyte, hshort, hlow, hopen, hclose, hdash, dashed, List.append_assoc,
    List.cons_append, List.nil_append]

theorem plain_append (s t : Bytes) : plain (s ++ t) = plain s ++ plain t := List.filter_append s t

theorem plain_numeral (width n : ℕ) : plain (numeral width n) = numeral width n := by
  refine List.filter_eq_self.mpr fun c hc => ?_
  have hall : ∀ n < 256, isxdigit (UInt8.ofNat n) = true → special (UInt8.ofNat n) = false := by
    decide +kernel
  have hdigit := hall c.toNat c.toNat_lt
  rw [UInt8.ofNat_toNat] at hdigit
  rw [hdigit (numeral_isxdigit hc)]
  rfl

theorem plain_tostring {u : Cuuid} (h : u.time_low.toNat < 2 ^ 32) :
    plain (quid_tostring u) = numerals widths (fields u) := by
  have hspecial : ∀ (c : UInt8) (s : Bytes), special c = true → plain (c :: s) = plain s :=
    fun c s hc => List.filter_cons_of_neg (by rw [hc]; decide)
  have hnil : plain [] = [] := rfl
  rw [quid_tostring_eq h, hspecial 123 _ rfl, plain_append, dashed, node_toList]
  simp only [plain_append, hspecial 45 _ rfl, hspecial 125 _ rfl, plain_numeral, hnil,
    List.map_cons, List.map_nil, List.flatten_cons, List.flatten_nil, List.append_nil,
    List.append_assoc]
  rfl

/-! ## Round trips -/

theorem splits_octets (s : Bytes) : splits widths s =
    [octets s 0 8, octets s 8 4, octets s 12 4, octets s 16 2, octets s 18 2, octets s 20 2,
      octets s 22 2, octets s 24 2, octets s 26 2, octets s 28 2, octets s 30 2] := by
  simp only [widths, splits, octets, List.drop_drop, List.drop_zero]

/-- The fields of a parsed text are its numbers, if they fit. -/
theorem strtoquid_fields {s : Bytes} (h : Fit widths (splits widths s)) (u : Quid) :
    fields (strtoquid s u).toCuuid = splits widths s := by
  rw [splits_octets] at h ⊢
  have hbyte : ∀ {n : ℕ}, n < 16 ^ 2 → n.toUInt8.toNat = n := fun hn => Nat.mod_eq_of_lt hn
  have hshort : ∀ {n : ℕ}, n < 16 ^ 4 → n.toUInt16.toNat = n := fun hn => Nat.mod_eq_of_lt hn
  simp only [Fit, widths, List.forall₂_cons] at h
  obtain ⟨hlow, hmid, hhi, hseq_hi, hseq_low, h₀, h₁, h₂, h₃, h₄, h₅, -⟩ := h
  have hlong : (octets s 0 8).toUInt64.toNat = octets s 0 8 :=
    Nat.mod_eq_of_lt (Nat.lt_trans hlow (by decide))
  change [(octets s 0 8).toUInt64.toNat, (octets s 8 4).toUInt16.toNat,
    (octets s 12 4).toUInt16.toNat, (octets s 16 2).toUInt8.toNat, (octets s 18 2).toUInt8.toNat,
    (octets s 20 2).toUInt8.toNat, (octets s 22 2).toUInt8.toNat, (octets s 24 2).toUInt8.toNat,
    (octets s 26 2).toUInt8.toNat, (octets s 28 2).toUInt8.toNat,
    (octets s 30 2).toUInt8.toNat] = _
  rw [hlong, hshort hmid, hshort hhi, hbyte hseq_hi, hbyte hseq_low, hbyte h₀, hbyte h₁, hbyte h₂,
    hbyte h₃, hbyte h₄, hbyte h₅]

/-- The version goes with the bits that the text shows, and two bytes of the node are set. -/
structure Genuine (u : Quid) : Prop where
  version : u.version = QUID_REV7 ∧ u.time_hi_and_version &&& VERSION_REV7 = VERSION_REV7 ∨
    u.version = QUID_REV4 ∧ u.time_hi_and_version &&& VERSION_REV7 ≠ VERSION_REV7 ∧
      u.time_hi_and_version &&& VERSION_REV4 = VERSION_REV4
  nonzero : filled u.toCuuid = true

theorem quid_validate_iff {u v : Quid} :
    quid_validate u = (true, v) ↔ v.toCuuid = u.toCuuid ∧ Genuine v := by
  obtain ⟨u, version⟩ := u
  obtain ⟨v, version'⟩ := v
  unfold quid_validate
  constructor
  · intro h
    split at h
    · next h7 =>
      obtain ⟨hfilled, hsame⟩ := Prod.mk.inj h
      obtain ⟨rfl, rfl⟩ := Quid.mk.inj hsame
      exact ⟨rfl, .inl ⟨rfl, h7⟩, hfilled⟩
    · next h7 =>
      split at h
      · next h4 =>
        obtain ⟨hfilled, hsame⟩ := Prod.mk.inj h
        obtain ⟨rfl, rfl⟩ := Quid.mk.inj hsame
        exact ⟨rfl, .inr ⟨rfl, h7, h4⟩, hfilled⟩
      · cases h
  · rintro ⟨rfl, hversion, hfilled⟩
    rcases hversion with ⟨hv, h7⟩ | ⟨hv, h7, h4⟩
    · obtain rfl : version' = QUID_REV7 := hv
      rw [if_pos h7, hfilled]
    · obtain rfl : version' = QUID_REV4 := hv
      rw [if_neg h7, if_pos h4, hfilled]

theorem isxdigit_of_tolower {c : UInt8} (h : isxdigit (tolower c) = true) : isxdigit c = true := by
  have hall : ∀ n < 256, isxdigit (tolower (UInt8.ofNat n)) = true →
      isxdigit (UInt8.ofNat n) = true := by decide +kernel
  have hc := hall c.toNat c.toNat_lt
  rw [UInt8.ofNat_toNat] at hc
  exact hc h

theorem strtoquid_eta (s : Bytes) (cuuid : Quid) :
    strtoquid s cuuid = ⟨(strtoquid s cuuid).toCuuid, cuuid.version⟩ := rfl

theorem strtoquid_of_numerals {s : Bytes} {u : Cuuid} (hu : u.time_low.toNat < 2 ^ 32)
    (h : s.map tolower = numerals widths (fields u)) (cuuid : Quid) :
    s.length = QUID_LEN ∧ s.all isxdigit = true ∧ (strtoquid s cuuid).toCuuid = u := by
  have hlen : s.length = widths.sum := by
    rw [← List.length_map tolower, h, numerals, List.length_flatten]
    simp only [widths, fields, List.zipWith_cons_cons, List.zipWith_nil_left, List.map_cons,
      List.map_nil, numeral_length]
  have hdigits : ∀ c ∈ s, isxdigit c = true := by
    intro c hc
    have hlower : tolower c ∈ numerals widths (fields u) := h ▸ List.mem_map_of_mem hc
    exact isxdigit_of_tolower (numerals_isxdigit hlower)
  obtain ⟨hfit, hsame⟩ := numerals_splits hlen hdigits
  have hsplits : splits widths s = fields u := by
    rw [← splits_numerals hfit, hsame, h, splits_numerals (fields_fit hu)]
  refine ⟨hlen, List.all_eq_true.mpr hdigits, fields_injective ?_⟩
  rw [strtoquid_fields hfit, hsplits]

/-- A text is taken for exactly those identifiers whose own text it is, apart from braces, dashes,
blanks and capitals, and which are genuine. -/
theorem quid_parse_iff {text : Bytes} (right : Bytes) (h0 : 0 ∉ text) (cuuid : Quid) {u : Quid} :
    (∃ buf, quid_parse (text ++ 0 :: right) cuuid = .ok (true, buf, u)) ↔
      u.time_low.toNat < 2 ^ 32 ∧
      (plain text).map tolower = plain (quid_tostring u.toCuuid) ∧ Genuine u := by
  obtain ⟨behind, hparse⟩ := quid_parse_eq right h0 cuuid
  rw [hparse]
  constructor
  · rintro ⟨buf, h⟩
    split at h
    · exact absurd (Prod.mk.inj (Except.ok.inj h)).1 (by decide)
    · next hshape =>
      obtain ⟨hlen, hdigits⟩ := not_or.mp hshape
      obtain ⟨hok, hsame⟩ := Prod.mk.inj (Except.ok.inj h)
      have hvalid : quid_validate (strtoquid (plain text) cuuid) = (true, u) :=
        Prod.ext hok (Prod.mk.inj hsame).2
      obtain ⟨hu, hgenuine⟩ := quid_validate_iff.mp hvalid
      have hlength : (plain text).length = widths.sum := not_not.mp hlen
      obtain ⟨hfit, htext⟩ :=
        numerals_splits hlength (List.all_eq_true.mp (not_not.mp hdigits))
      have hfields := strtoquid_fields hfit cuuid
      rw [← hu] at hfields
      have hlow : u.time_low.toNat < 2 ^ 32 := by
        rw [← hfields] at hfit
        exact (List.forall₂_cons.mp hfit).1
      rw [plain_tostring hlow, hfields]
      exact ⟨hlow, htext.symm, hgenuine⟩
  · rintro ⟨hlow, htext, hgenuine⟩
    rw [plain_tostring hlow] at htext
    obtain ⟨hlen, hdigits, hu⟩ := strtoquid_of_numerals hlow htext cuuid
    have hvalid := quid_validate_iff.mpr ⟨hu.symm, hgenuine⟩
    have hshape : ¬((plain text).length ≠ QUID_LEN ∨ ¬(plain text).all isxdigit) :=
      not_or.mpr ⟨not_not_intro hlen, not_not_intro hdigits⟩
    rw [if_neg hshape, hvalid]
    exact ⟨_, rfl⟩

def token_quid : Quid where
  time_low := 0x938f5687
  time_mid := 0xd39a
  time_hi_and_version := 0xb152
  clock_seq_hi_and_reserved := 0x8a
  clock_seq_low := 0xcd
  node := #v[0x30, 0x2e, 0xc4, 0xb9, 0x09, 0x96]
  version := QUID_REV7

theorem quid_parse_iff_token : ∃ buf,
    quid_parse (bytes "938F5687-D39AB152 8ACD302EC4B90996" ++ [0]) wiped =
      .ok (true, buf, token_quid) :=
  (quid_parse_iff [] (by decide +kernel) wiped).mpr
    ⟨by decide, by decide +kernel, .inl ⟨rfl, by decide⟩, by decide⟩

theorem quid_parse_tostring {u : Cuuid} (hu : u.time_low.toNat < 2 ^ 32) (right : Bytes)
    (cuuid : Quid) : ∃ buf, quid_parse (quid_tostring u ++ 0 :: right) cuuid =
      .ok ((quid_validate ⟨u, cuuid.version⟩).1, buf, (quid_validate ⟨u, cuuid.version⟩).2) := by
  have hplain := plain_tostring hu
  have hlower : (plain (quid_tostring u)).map tolower = numerals widths (fields u) := by
    have hfit := fields_fit hu
    have hdigits : ∀ c ∈ numerals widths (fields u), isxdigit c = true :=
      fun c hc => numerals_isxdigit hc
    have hlen : (numerals widths (fields u)).length = widths.sum := by
      rw [numerals, List.length_flatten]
      simp only [widths, fields, List.zipWith_cons_cons, List.zipWith_nil_left, List.map_cons,
        List.map_nil, numeral_length]
    have hsame := (numerals_splits hlen hdigits).2
    rw [hplain, ← hsame, splits_numerals hfit]
  have h0 : 0 ∉ quid_tostring u := by
    intro h
    have hmem : 0 ∈ plain (quid_tostring u) := List.mem_filter.mpr ⟨h, rfl⟩
    rw [hplain] at hmem
    exact absurd (numerals_isxdigit hmem) (by decide)
  obtain ⟨hlen, hdigits, hsame⟩ := strtoquid_of_numerals hu hlower cuuid
  obtain ⟨behind, hparse⟩ := quid_parse_eq right h0 cuuid
  have hshape : ¬((plain (quid_tostring u)).length ≠ QUID_LEN ∨
      ¬(plain (quid_tostring u)).all isxdigit) :=
    not_or.mpr ⟨not_not_intro hlen, not_not_intro hdigits⟩
  rw [if_neg hshape, strtoquid_eta, hsame] at hparse
  exact ⟨_, hparse⟩

theorem quid_tostring_injective {u v : Cuuid} (hu : u.time_low.toNat < 2 ^ 32)
    (hv : v.time_low.toNat < 2 ^ 32) (h : quid_tostring u = quid_tostring v) : u = v := by
  have hplain := congrArg plain h
  rw [plain_tostring hu, plain_tostring hv] at hplain
  apply fields_injective
  rw [← splits_numerals (fields_fit hu), hplain, splits_numerals (fields_fit hv)]

theorem or_and_self (x v : UInt16) : (x ||| v) &&& v = v := by
  apply UInt16.toBitVec_inj.mp
  ext i hi
  rw [UInt16.toBitVec_and, UInt16.toBitVec_or, BitVec.getElem_and, BitVec.getElem_or]
  cases v.toBitVec[i] <;> simp

theorem formatted_low (timestamp : UInt64) (clockseq : UInt16) :
    (formatted timestamp clockseq).time_low.toNat < 2 ^ 32 := by
  have hlow : (formatted timestamp clockseq).time_low.toNat = timestamp.toNat % 2 ^ 32 :=
    time_low_toNat timestamp
  rw [hlow]
  exact Nat.mod_lt _ (by decide)

theorem quid_create_inv {timestamp : UInt64} {clockseq : UInt16} {flag subc : UInt8}
    {tag : Option (Vector UInt8 3)} {u : Quid}
    (h : quid_create timestamp clockseq flag subc tag = .ok u) :
    u.version = QUID_REV7 ∧ u.time_hi_and_version &&& VERSION_REV7 = VERSION_REV7 ∧
      u.time_low.toNat < 2 ^ 32 ∧ (cuuid_time u).toNat = timestamp.toNat % 2 ^ 60 ∧
      u.encrypted = .ok (plain_node flag subc tag) := by
  obtain ⟨node, hcreate, hnode⟩ := quid_create_ok timestamp clockseq flag subc tag
  obtain rfl := Except.ok.inj (hcreate.symm.trans h)
  exact ⟨rfl, or_and_self _ _, formatted_low timestamp clockseq,
    cuuid_time_format timestamp rfl clockseq, hnode⟩

/-- Out of its text comes back the identifier that was made, with its flags, its category, its tag
and sixty bits of its time. It passes its own validation if two encrypted bytes are not zero. -/
theorem quid_create_returns (timestamp : UInt64) (clockseq : UInt16) (flag subc : UInt8)
    (tag : Option (Vector UInt8 3)) (right : Bytes) (cuuid : Quid) : ∃ u buf,
    quid_create timestamp clockseq flag subc tag = .ok u ∧
    quid_parse (quid_tostring u.toCuuid ++ 0 :: right) cuuid = .ok (filled u.toCuuid, buf, u) ∧
    (cuuid_time u).toNat = timestamp.toNat % 2 ^ 60 ∧
    quid_flag u = .ok flag ∧ quid_category u = .ok subc ∧ quid_tag u = .ok (tag_text tag) := by
  obtain ⟨node, hcreate, -⟩ := quid_create_ok timestamp clockseq flag subc tag
  obtain ⟨hversion, hbits, hlow, htime, hnode⟩ := quid_create_inv hcreate
  obtain ⟨buf, hparse⟩ := quid_parse_tostring hlow right cuuid
  refine ⟨_, buf, hcreate, ?_, htime, node_byte_encrypted hversion hnode _,
    node_byte_encrypted hversion hnode _, quid_tag_encrypted hversion hnode⟩
  rw [hparse, quid_validate, if_pos hbits, ← hversion]

end QuidText
