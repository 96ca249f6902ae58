import Ayahesa.ConfigSufficient
import Ayahesa.KeywordText

/-! # The connection string of a database

The settings are put together in a buffer of 128 bytes. The first write is cut to it, those
behind it are appended without a look at the room, and no value is quoted. -/
namespace DatabaseSettings

open CMemory CompatStrings CompatCopy AppConfig AppStart KeywordText

def append_setting (app : App) (key keyword : Bytes) (connstring : Block) : C Block := do
  match ← config_get_str app key none with
  | none => return connstring
  | some value =>
    let connstring ← strcat connstring keyword
    let connstring ← strcat connstring value
    strcat connstring (bytes " ")

/-- The variant and its connection string, as Kore is given them. -/
def variant_register (n : Bytes) (app : App) (dbname : Bytes) : C (Bytes × Bytes) := do
  let text := snprintf 128 (bytes "dbname=" ++ dbname ++ bytes " ")
  let connstring := terminated text ++ (aya_malloc 128).drop (text.length + 1)
  let connstring ← append_setting app (n ++ bytes ".user") (bytes "user=") connstring
  let connstring ← append_setting app (n ++ bytes ".password") (bytes "password=") connstring
  let connstring ← append_setting app (n ++ bytes ".host") (bytes "host=") connstring
  return (n, ← contents connstring)

def db_register : App → Bytes → C (Bytes × Bytes) := variant_register (bytes "db")

def dbr_register : App → Bytes → C (Bytes × Bytes) := variant_register (bytes "dbr")

def dbrw_register : App → Bytes → C (Bytes × Bytes) := variant_register (bytes "dbrw")

def register_named (register : Bytes → C (Bytes × Bytes)) :
    Option Bytes → C (List (Bytes × Bytes))
  | some dbname => return [← register dbname]
  | none => return []

def database_init (app : App) : C (List (Bytes × Bytes)) := do
  match ← config_get_str app (bytes "db.name") none with
  | some dbname => register_named (db_register app) (some dbname)
  | none =>
    let dbrwname ← config_get_str app (bytes "dbrw.name") none
    let readwrite ← register_named (dbrw_register app) dbrwname
    let dbrname ← config_get_str app (bytes "dbr.name") none
    let read ← register_named (dbr_register app) dbrname
    return readwrite ++ read

/-- The signs of a connection string, as libpq reads it. -/
def conninfo : Signs UInt8 where
  blank := isspace
  equals := 61
  quote := 39
  escape := 92
  equals_solid := by decide
  quote_solid := by decide
  escape_solid := by decide

structure Database where
  dbname : Bytes
  user : Option Bytes
  password : Option Bytes
  host : Option Bytes

def Database.login (db : Database) : List (Bytes × Bytes) :=
  (db.user.map fun v => (bytes "user", v)).toList ++
    ((db.password.map fun v => (bytes "password", v)).toList ++
      (db.host.map fun v => (bytes "host", v)).toList)

def Database.items (db : Database) : List (Bytes × Bytes) :=
  (bytes "dbname", db.dbname) :: db.login

/-- The application has these settings under the keys of a variant. -/
structure Configured (app : App) (n : Bytes) (db : Database) : Prop where
  user : config_get_str app (n ++ bytes ".user") none = .ok db.user
  password : config_get_str app (n ++ bytes ".password") none = .ok db.password
  host : config_get_str app (n ++ bytes ".host") none = .ok db.host
  clean : ∀ item ∈ db.items, 0 ∉ item.2

/-- All settings fit the buffer with a blank behind each; the blank behind a lone name may be cut
off. -/
def Fits (db : Database) : Prop :=
  (written conninfo 32 db.items).length ≤ if db.login = [] then 128 else 127

/-- Every value stands for itself, and none but the last is empty. -/
structure Unambiguous (db : Database) : Prop where
  readable : ∀ item ∈ db.items, Readable conninfo item.2
  filled : ∀ item ∈ db.items.dropLast, item.2 ≠ []

def Registers (app : App) (n : Bytes) (db : Database) : Prop :=
  ∃ connstring, variant_register n app db.dbname = .ok (n, connstring) ∧
    read conninfo connstring = some db.items

/-! ## The string in its buffer -/

def Holds (text : Bytes) (block : Block) : Prop :=
  0 ∉ text ∧ ∃ behind, block = terminated text ++ behind ∧ text.length + 1 + behind.length = 128

/-- A text that fits was written, one that does not has left the buffer. -/
def Leaves (text : Bytes) (r : C Block) : Prop :=
  if text.length ≤ 127 then ∃ block, r = .ok block ∧ Holds text block
  else r = .error .outOfBounds

theorem Leaves.strcat {text src : Bytes} {r : C Block} (h : Leaves text r) (hsrc : 0 ∉ src) :
    Leaves (text ++ src) (r >>= fun block => AppStart.strcat block src) := by
  unfold Leaves at h ⊢
  rw [List.length_append]
  by_cases htext : text.length ≤ 127
  · rw [if_pos htext] at h
    obtain ⟨block, rfl, hclean, behind, rfl, hroom⟩ := h
    have hcat := strcat_eq hclean src behind
    have hboth : 0 ∉ text ++ src := by
      rw [List.mem_append]
      exact fun h0 => h0.elim hclean hsrc
    by_cases hfits : text.length + src.length ≤ 127
    · rw [if_pos (by omega)] at hcat
      rw [if_pos hfits]
      refine ⟨_, hcat, hboth, behind.drop src.length, rfl, ?_⟩
      rw [List.length_append, List.length_drop]
      omega
    · rw [if_neg (by omega)] at hcat
      rw [if_neg hfits]
      exact hcat
  · rw [if_neg htext] at h
    rw [if_neg (by omega), h]
    rfl

theorem append_setting_none {app : App} {key : Bytes}
    (hget : config_get_str app key none = .ok none) (keyword : Bytes) :
    append_setting app key keyword = pure := by
  funext block
  simp only [append_setting, hget, bind, Except.bind]

theorem append_setting_some {app : App} {key value : Bytes}
    (hget : config_get_str app key none = .ok (some value)) (keyword : Bytes) :
    append_setting app key keyword = fun block =>
      ((strcat block keyword >>= fun block => strcat block value) >>= fun block =>
        strcat block (bytes " ")) := by
  funext block
  simp only [append_setting, hget, bind_assoc]
  rfl

theorem Leaves.append {app : App} {key text : Bytes} {r : C Block} {value : Option Bytes}
    (h : Leaves text r) (name : Bytes) (hget : config_get_str app key none = .ok value)
    (hname : 0 ∉ name) (hvalue : ∀ v, value = some v → 0 ∉ v) :
    Leaves (text ++ written conninfo 32 (value.map fun v => (name, v)).toList)
      (r >>= append_setting app key (name ++ [61])) := by
  cases value with
  | none =>
    have hnone : text ++ written conninfo 32
        ((none : Option Bytes).map fun v => (name, v)).toList = text := List.append_nil text
    rw [append_setting_none hget, bind_pure, hnone]
    exact h
  | some v =>
    have hkeyword : 0 ∉ name ++ [61] := by simpa using hname
    have hblank : 0 ∉ bytes " " := by decide
    have hall := ((h.strcat hkeyword).strcat (hvalue v rfl)).strcat hblank
    have htext : text ++ (name ++ [61]) ++ v ++ bytes " " =
        text ++ written conninfo 32 ((some v).map fun v => (name, v)).toList := by
      have hsep : bytes " " = [32] := by decide
      simp [written, hsep, conninfo]
    rw [htext] at hall
    rw [append_setting_some hget]
    simpa only [bind_assoc] using hall

/-- The bounded first write. -/
def named (dbname : Bytes) : Bytes := snprintf 128 (bytes "dbname=" ++ dbname ++ bytes " ")

theorem named_leaves {dbname : Bytes} (hclean : 0 ∉ dbname) :
    Leaves (named dbname)
      (.ok (terminated (named dbname) ++ (aya_malloc 128).drop ((named dbname).length + 1))) := by
  have hle : (named dbname).length ≤ 127 := List.length_take_le _ _
  unfold Leaves
  rw [if_pos hle]
  refine ⟨_, rfl, ?_, _, rfl, ?_⟩
  · intro h0
    have hmem := List.mem_of_mem_take h0
    have hkeyword : 0 ∉ bytes "dbname=" := by decide
    have hblank : 0 ∉ bytes " " := by decide
    simp [hkeyword, hblank, hclean] at hmem
  · rw [List.length_drop, aya_malloc_length]
    omega

theorem variant_register_eq {app : App} {n : Bytes} {db : Database} (h : Configured app n db) :
    variant_register n app db.dbname =
      if (named db.dbname ++ written conninfo 32 db.login).length ≤ 127 then
        .ok (n, named db.dbname ++ written conninfo 32 db.login)
      else .error .outOfBounds := by
  have hclean : ∀ name v, (name, v) ∈ db.items → 0 ∉ v := fun name v hmem => h.clean _ hmem
  have hfirst := named_leaves (hclean (bytes "dbname") db.dbname List.mem_cons_self)
  have huser : ∀ v, db.user = some v → 0 ∉ v := fun v hv =>
    hclean (bytes "user") v (by simp [Database.items, Database.login, hv])
  have hpassword : ∀ v, db.password = some v → 0 ∉ v := fun v hv =>
    hclean (bytes "password") v (by simp [Database.items, Database.login, hv])
  have hhost : ∀ v, db.host = some v → 0 ∉ v := fun v hv =>
    hclean (bytes "host") v (by simp [Database.items, Database.login, hv])
  have hall := ((hfirst.append (bytes "user") h.user (by decide) huser).append
    (bytes "password") h.password (by decide) hpassword).append
    (bytes "host") h.host (by decide) hhost
  rw [List.append_assoc, List.append_assoc, ← written_append, ← written_append] at hall
  change Leaves (named db.dbname ++ written conninfo 32 db.login) _ at hall
  have hregister : variant_register n app db.dbname =
      ((((.ok (terminated (named db.dbname) ++
          (aya_malloc 128).drop ((named db.dbname).length + 1)) : C Block) >>=
        append_setting app (n ++ bytes ".user") (bytes "user" ++ [61])) >>=
        append_setting app (n ++ bytes ".password") (bytes "password" ++ [61])) >>=
        append_setting app (n ++ bytes ".host") (bytes "host" ++ [61])) >>= fun block =>
          (contents block).map fun connstring => (n, connstring) := by
    have hkeys : bytes "user=" = bytes "user" ++ [61] ∧
        bytes "password=" = bytes "password" ++ [61] ∧ bytes "host=" = bytes "host" ++ [61] := by
      decide
    simp only [variant_register, hkeys, bind_assoc, named]
    rfl
  unfold Leaves at hall
  rw [hregister]
  by_cases hfits : (named db.dbname ++ written conninfo 32 db.login).length ≤ 127
  · rw [if_pos hfits] at hall ⊢
    obtain ⟨block, hblock, hclean, behind, rfl, -⟩ := hall
    rw [hblock]
    simp only [bind, Except.bind, contents_terminated hclean behind]
    rfl
  · rw [if_neg hfits] at hall ⊢
    rw [hall]
    rfl

theorem conninfo_blank : conninfo.blank 32 = true := by decide

theorem login_keywords (db : Database) : ∀ item ∈ db.login, IsKeyword conninfo item.1 := by
  have hkeyword : ∀ name ∈ [bytes "user", bytes "password", bytes "host"],
      IsKeyword conninfo name := by
    intro name hname
    simp only [List.mem_cons, List.not_mem_nil, or_false] at hname
    rcases hname with rfl | rfl | rfl
    · exact ⟨⟨117, bytes "ser", by decide, by decide⟩, by decide +kernel⟩
    · exact ⟨⟨112, bytes "assword", by decide, by decide⟩, by decide +kernel⟩
    · exact ⟨⟨104, bytes "ost", by decide, by decide⟩, by decide +kernel⟩
  rintro item hitem
  apply hkeyword
  simp only [Database.login, List.mem_append, Option.mem_toList, Option.map_eq_some_iff] at hitem
  rcases hitem with ⟨v, -, rfl⟩ | ⟨v, -, rfl⟩ | ⟨v, -, rfl⟩ <;> simp

theorem dbname_keyword : IsKeyword conninfo (bytes "dbname") :=
  ⟨⟨100, bytes "bname", by decide, by decide⟩, by decide +kernel⟩

theorem named_eq (dbname : Bytes) :
    named dbname = bytes "dbname" ++ 61 :: (dbname ++ [32]).take 120 := by
  have hkey : bytes "dbname=" = bytes "dbname" ++ [61] := by decide
  have hsep : bytes " " = [32] := by decide
  have hlen : (bytes "dbname" ++ [61]).length = 7 := by decide
  rw [named, snprintf, hkey, hsep, List.append_assoc _ dbname, List.take_append, hlen,
    List.take_of_length_le (by omega)]
  simp

/-- A name that is followed by nothing is read back if it was not cut off. -/
theorem named_iff (dbname : Bytes) :
    read conninfo (named dbname) = some [(bytes "dbname", dbname)] ↔
      dbname.length ≤ 120 ∧ Readable conninfo dbname := by
  have hread : ∀ tail, tail = [] ∨ tail = [32] →
      (read conninfo (bytes "dbname" ++ 61 :: (dbname ++ tail)) = some [(bytes "dbname", dbname)] ↔
        Readable conninfo dbname) := by
    intro tail htail
    have hread := @read_written_iff _ _ conninfo (bytes "dbname") dbname tail 32 [] conninfo_blank
      (fun _ h => nomatch h) dbname_keyword htail
    exact hread.trans ⟨And.right, fun h => ⟨fun _ hmem => (nomatch hmem), h⟩⟩
  rw [named_eq]
  rcases Nat.lt_trichotomy dbname.length 120 with hshort | hequal | hlong
  · rw [List.take_of_length_le (by rw [List.length_append, List.length_singleton]; omega),
      hread [32] (Or.inr rfl)]
    exact ⟨fun h => ⟨Nat.le_of_lt hshort, h⟩, And.right⟩
  · have hwhole := hread [] (Or.inl rfl)
    rw [List.append_nil] at hwhole
    rw [← hequal, List.take_left, hwhole]
    exact ⟨fun h => ⟨Nat.le_refl _, h⟩, And.right⟩
  · rw [List.take_append_of_le_length (Nat.le_of_lt hlong)]
    refine iff_of_false (read_cut dbname_keyword ?_) fun h => by omega
    rw [List.length_take_of_le (Nat.le_of_lt hlong)]
    exact hlong

theorem items_iff (db : Database) :
    read conninfo (written conninfo 32 db.items) = some db.items ↔ Unambiguous db := by
  have hkeywords : ∀ item ∈ db.items, IsKeyword conninfo item.1 := by
    intro item hitem
    rcases List.mem_cons.mp hitem with rfl | hitem
    · exact dbname_keyword
    · exact login_keywords db item hitem
  obtain ⟨init, last, hsplit⟩ : ∃ init last, db.items = init ++ [last] := by
    rcases List.eq_nil_or_concat db.items with hnil | ⟨init, last, h⟩
    · cases hnil
    · exact ⟨init, last, by rw [h, List.concat_eq_append]⟩
  have hread := @read_written_iff _ _ conninfo last.1 last.2 [32] 32 init conninfo_blank
    (fun item hitem => hkeywords item (hsplit ▸ List.mem_append_left _ hitem))
    (hkeywords last (hsplit ▸ List.mem_append_right _ List.mem_cons_self)) (Or.inr rfl)
  have hlast : written conninfo 32 [last] = last.1 ++ conninfo.equals :: (last.2 ++ [32]) := by
    simp [written]
  rw [← hlast, ← written_append] at hread
  rw [hsplit]
  refine hread.trans ?_
  constructor
  · rintro ⟨hinit, hend⟩
    refine ⟨fun item hitem => ?_, fun item hitem => ?_⟩
    · rw [hsplit] at hitem
      rcases List.mem_append.mp hitem with hitem | hitem
      · exact (hinit item hitem).1
      · obtain rfl := List.mem_singleton.mp hitem
        exact hend
    · rw [hsplit, List.dropLast_concat] at hitem
      exact (hinit item hitem).2
  · intro h
    refine ⟨fun item hitem => ⟨h.readable item ?_, h.filled item ?_⟩, h.readable last ?_⟩
    · rw [hsplit]
      exact List.mem_append_left _ hitem
    · rw [hsplit, List.dropLast_concat]
      exact hitem
    · rw [hsplit]
      exact List.mem_append_right _ List.mem_cons_self

section Registers

variable {app : App} {n : Bytes} {db : Database}

theorem registers_iff (h : Configured app n db) : Registers app n db ↔
    (named db.dbname ++ written conninfo 32 db.login).length ≤ 127 ∧
      read conninfo (named db.dbname ++ written conninfo 32 db.login) = some db.items := by
  rw [Registers, variant_register_eq h]
  split
  · next hle =>
    constructor
    · rintro ⟨connstring, hconn, hsays⟩
      obtain ⟨-, rfl⟩ := Prod.mk.inj (Except.ok.inj hconn)
      exact ⟨hle, hsays⟩
    · exact fun h => ⟨_, rfl, h.2⟩
  · next hover => exact iff_of_false (fun ⟨_, hconn, _⟩ => nomatch hconn) fun h => hover h.1

theorem items_written (db : Database) : written conninfo 32 db.items =
    bytes "dbname" ++ 61 :: (db.dbname ++ [32]) ++ written conninfo 32 db.login := rfl

theorem items_length (db : Database) : (written conninfo 32 db.items).length =
    8 + db.dbname.length + (written conninfo 32 db.login).length := by
  have hdbname : (bytes "dbname").length = 6 := by decide
  rw [items_written]
  simp only [List.length_append, List.length_cons, List.length_nil, hdbname]
  omega

theorem named_length (dbname : Bytes) :
    (named dbname).length = min 127 (8 + dbname.length) := by
  have hdbname : (bytes "dbname").length = 6 := by decide
  rw [named_eq]
  simp only [List.length_append, List.length_cons, List.length_take, List.length_nil, hdbname]
  omega

theorem registers_alone_iff (h : Configured app n db) (hlogin : db.login = []) :
    Registers app n db ↔ Fits db ∧ Unambiguous db := by
  have hnone : written conninfo 32 db.login = [] := by rw [hlogin]; rfl
  have hlone : db.items = [(bytes "dbname", db.dbname)] := by rw [Database.items, hlogin]
  have hread := named_iff db.dbname
  rw [← hlone] at hread
  rw [registers_iff h, hnone, List.append_nil, named_length, hread, Fits, if_pos hlogin,
    items_length, hnone, List.length_nil]
  constructor
  · rintro ⟨-, hshort, hreadable⟩
    refine ⟨by omega, fun item hitem => ?_, fun item hitem => ?_⟩
    · rw [hlone] at hitem
      obtain rfl := List.mem_singleton.mp hitem
      exact hreadable
    · rw [hlone] at hitem
      cases hitem
  · rintro ⟨hshort, hgood⟩
    exact ⟨by omega, by omega, hgood.readable _ List.mem_cons_self⟩

theorem registers_login_iff (h : Configured app n db) (hlogin : db.login ≠ []) :
    Registers app n db ↔ Fits db ∧ Unambiguous db := by
  have hpos : 1 ≤ (written conninfo 32 db.login).length :=
    Nat.le_trans (List.length_pos_of_ne_nil hlogin) (length_le_written db.login)
  have hread := items_iff db
  rw [registers_iff h, List.length_append, named_length, Fits, if_neg hlogin, items_length, ← hread]
  by_cases hfits : 8 + db.dbname.length + (written conninfo 32 db.login).length ≤ 127
  · have hwhole : named db.dbname ++ written conninfo 32 db.login =
        written conninfo 32 db.items := by
      rw [items_written, named_eq, List.take_of_length_le]
      rw [List.length_append, List.length_singleton]
      omega
    rw [hwhole]
    exact ⟨fun h => ⟨hfits, h.2⟩, fun h => ⟨by omega, h.2⟩⟩
  · exact iff_of_false (fun h => hfits (by omega)) fun h => hfits h.1

end Registers

/-! ## The variants -/

theorem database_init_variant {app : App} {registered : List (Bytes × Bytes)}
    (h : database_init app = .ok registered) {entry : Bytes × Bytes} (hmem : entry ∈ registered) :
    ∃ n ∈ [bytes "db", bytes "dbrw", bytes "dbr"], ∃ dbname,
      config_get_str app (n ++ bytes ".name") none = .ok (some dbname) ∧
      variant_register n app dbname = .ok entry := by
  obtain ⟨hdb, hdbrw, hdbr⟩ : bytes "db.name" = bytes "db" ++ bytes ".name" ∧
      bytes "dbrw.name" = bytes "dbrw" ++ bytes ".name" ∧
      bytes "dbr.name" = bytes "dbr" ++ bytes ".name" := by decide
  have lone : ∀ {n : Bytes} {name : Option Bytes} {entries : List (Bytes × Bytes)},
      n ∈ [bytes "db", bytes "dbrw", bytes "dbr"] →
      config_get_str app (n ++ bytes ".name") none = .ok name →
      register_named (variant_register n app) name = .ok entries → entry ∈ entries →
      ∃ n ∈ [bytes "db", bytes "dbrw", bytes "dbr"], ∃ dbname,
        config_get_str app (n ++ bytes ".name") none = .ok (some dbname) ∧
        variant_register n app dbname = .ok entry := by
    intro n name entries hn hname hcall hentry
    cases name with
    | none => cases hcall; cases hentry
    | some dbname =>
      obtain ⟨db, hregister, hcall⟩ := bind_ok hcall
      cases hcall
      rw [List.mem_singleton.mp hentry]
      exact ⟨n, hn, dbname, hname, hregister⟩
  simp only [database_init, hdb, hdbrw, hdbr] at h
  obtain ⟨name, hname, h⟩ := bind_ok h
  cases name with
  | some dbname => exact lone (by simp) hname h hmem
  | none =>
    obtain ⟨dbrwname, hdbrwname, h⟩ := bind_ok h
    obtain ⟨readwrite, hreadwrite, h⟩ := bind_ok h
    obtain ⟨dbrname, hdbrname, h⟩ := bind_ok h
    obtain ⟨read, hread, h⟩ := bind_ok h
    cases h
    rcases List.mem_append.mp hmem with hmem | hmem
    · exact lone (by simp) hdbrwname hreadwrite hmem
    · exact lone (by simp) hdbrname hread hmem

theorem variant_register_name {app : App} {n m dbname connstring : Bytes}
    (h : variant_register n app dbname = .ok (m, connstring)) : m = n := by
  obtain ⟨_, _, h⟩ := bind_ok h
  obtain ⟨_, _, h⟩ := bind_ok h
  obtain ⟨_, _, h⟩ := bind_ok h
  obtain ⟨_, _, h⟩ := bind_ok h
  exact (Prod.mk.inj (Except.ok.inj h)).1.symm

theorem database_init_built {app : App} {registered : List (Bytes × Bytes)}
    {n dbname connstring : Bytes} (hinit : database_init app = .ok registered)
    (hname : config_get_str app (n ++ bytes ".name") none = .ok (some dbname))
    (hmem : (n, connstring) ∈ registered) :
    variant_register n app dbname = .ok (n, connstring) := by
  obtain ⟨m, -, dbname', hname', hcall⟩ := database_init_variant hinit hmem
  obtain rfl := variant_register_name hcall
  obtain rfl := Option.some.inj (Except.ok.inj (hname'.symm.trans hname))
  exact hcall

/-- A variant is registered inside its buffer and with what is configured if and only if all
settings fit and every value stands for itself; so are those that start-up registers. -/
theorem variant_register_iff (app : App) (n : Bytes) (db : Database) (h : Configured app n db) :
    (Registers app n db ↔ Fits db ∧ Unambiguous db) ∧
    ∀ registered connstring, config_get_str app (n ++ bytes ".name") none = .ok (some db.dbname) →
      database_init app = .ok registered → (n, connstring) ∈ registered →
      (read conninfo connstring = some db.items ↔ Fits db ∧ Unambiguous db) := by
  have hiff : Registers app n db ↔ Fits db ∧ Unambiguous db := by
    by_cases hlogin : db.login = []
    · exact registers_alone_iff h hlogin
    · exact registers_login_iff h hlogin
  refine ⟨hiff, fun registered connstring hname hinit hmem => ?_⟩
  have hbuilt := database_init_built hinit hname hmem
  rw [← hiff]
  constructor
  · exact fun hsays => ⟨connstring, hbuilt, hsays⟩
  · rintro ⟨connstring', hbuilt', hsays⟩
    obtain ⟨-, rfl⟩ := Prod.mk.inj (Except.ok.inj (hbuilt'.symm.trans hbuilt))
    exact hsays

def stored (settings : List (Bytes × Bytes)) : App :=
  let app := application_create (bytes "shop")
  { app with config := { app.config with
      alloc_cnt := settings.length
      ptr := settings.map fun (key, value) => some ⟨key, .T_STRING value⟩ } }

/-- Start-up registers the database with all that is configured. -/
theorem variant_register_iff_login :
    Registers (stored [(bytes "db.name", bytes "shop"), (bytes "db.user", bytes "web"),
        (bytes "db.password", bytes "s'3=x")]) (bytes "db")
      ⟨bytes "shop", some (bytes "web"), some (bytes "s'3=x"), none⟩ ∧
    read conninfo (bytes "dbname=shop user=web password=s'3=x ") =
      some [(bytes "dbname", bytes "shop"), (bytes "user", bytes "web"),
        (bytes "password", bytes "s'3=x")] := by
  have hgood : Fits ⟨bytes "shop", some (bytes "web"), some (bytes "s'3=x"), none⟩ ∧
      Unambiguous ⟨bytes "shop", some (bytes "web"), some (bytes "s'3=x"), none⟩ :=
    ⟨by unfold Fits; decide, ⟨fun item hitem => ⟨by revert item; decide +kernel,
      by revert item; decide, by revert item; decide⟩, by decide⟩⟩
  obtain ⟨hregisters, hstarted⟩ := variant_register_iff
    (stored [(bytes "db.name", bytes "shop"), (bytes "db.user", bytes "web"),
      (bytes "db.password", bytes "s'3=x")]) (bytes "db")
    ⟨bytes "shop", some (bytes "web"), some (bytes "s'3=x"), none⟩ ⟨rfl, rfl, rfl, by decide⟩
  exact ⟨hregisters.mpr hgood, (hstarted
    [(bytes "db", bytes "dbname=shop user=web password=s'3=x ")] _ (by decide) (by decide +kernel)
    List.mem_cons_self).mpr hgood⟩

/-- Behind a blank in it a password goes on as a setting of its own. -/
theorem password_splits :
    ¬∀ (app : App) (n : Bytes) (db : Database), Configured app n db → Registers app n db := by
  intro h
  let db : Database := ⟨bytes "shop", none, some (bytes "x host=evil"), none⟩
  have hconfigured :
      Configured (stored [(bytes "db.password", bytes "x host=evil")]) (bytes "db") db :=
    ⟨rfl, rfl, rfl, by decide⟩
  obtain ⟨connstring, hconn, hsays⟩ := h _ _ db hconfigured
  rw [variant_register_eq hconfigured, if_pos (by decide)] at hconn
  obtain ⟨-, rfl⟩ := Prod.mk.inj (Except.ok.inj hconn)
  revert hsays
  decide

end DatabaseSettings
