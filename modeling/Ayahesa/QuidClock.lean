import Ayahesa.QuidText
import Ayahesa.TickCounters
import Mathlib.Data.List.Nodup

/-! # The clock of the identifiers

`get_current_time` reads the clock until it shows another time, or until the same time may be
given once more with a number added to it. The readings are what `gettimeofday` returns, one
after the other; `none` means that they are over before a call returns. -/
namespace QuidClock

open CMemory JwtToken QuidIdentifier QuidText TickCounters

def UIDS_PER_TICK : UInt16 := 1024

def get_system_time (tv : Timeval) : UInt64 :=
  (EPOCH_DIFF + tv.tv_sec.toUInt64) * 10000000 + (tv.tv_usec * 10).toUInt64

structure Statics where
  inited : Bool
  time_last : UInt64
  ids_this_tick : UInt16

def fresh : Statics := ⟨false, 0, 0⟩

structure Draw where
  time_now : UInt64
  ids_this_tick : UInt16
  deriving DecidableEq

def Draw.timestamp (d : Draw) : UInt64 := d.time_now + d.ids_this_tick.toUInt64

def tickLoop (s : Statics) : List Timeval → Option (Draw × Statics × List Timeval)
  | [] => none
  | tv :: readings =>
    let time_now := get_system_time tv
    if s.time_last ≠ time_now then
      some (⟨time_now, 0⟩, { s with ids_this_tick := 0, time_last := time_now }, readings)
    else if s.ids_this_tick < UIDS_PER_TICK then
      some (⟨time_now, s.ids_this_tick + 1⟩, { s with ids_this_tick := s.ids_this_tick + 1 },
        readings)
    else tickLoop s readings

/-- The first call throws a reading away. -/
def get_current_time (s : Statics) (readings : List Timeval) :
    Option (Draw × Statics × List Timeval) :=
  if s.inited then tickLoop s readings
  else tickLoop { s with inited := true, ids_this_tick := UIDS_PER_TICK } readings.tail

def draw_times : ℕ → Statics → List Timeval → Option (List Draw)
  | 0, _, _ => some []
  | n + 1, s, readings => do
    let (d, s, readings) ← get_current_time s readings
    let draws ← draw_times n s readings
    return d :: draws

/-! ## One call -/

def Draw.stamp (d : Draw) : Stamp := ⟨d.time_now.toNat, d.ids_this_tick.toNat⟩

def Statics.last (s : Statics) : Draw := ⟨s.time_last, s.ids_this_tick⟩

theorem tickLoop_inv {s s' : Statics} {readings rest : List Timeval} {d : Draw}
    (h : tickLoop s readings = some (d, s', rest)) :
    (∃ passed tv, readings = passed ++ tv :: rest ∧ d.time_now = get_system_time tv) ∧
    s'.last = d ∧ s'.inited = s.inited ∧
    (s.time_last ≠ d.time_now ∧ d.ids_this_tick = 0 ∨
      s.time_last = d.time_now ∧ s.ids_this_tick < UIDS_PER_TICK ∧
        d.ids_this_tick = s.ids_this_tick + 1) := by
  induction readings with
  | nil => cases h
  | cons tv readings ih =>
    rw [tickLoop] at h
    split at h
    · next hnew =>
      obtain ⟨rfl, rfl, rfl⟩ := Option.some.inj h
      exact ⟨⟨[], tv, rfl, rfl⟩, rfl, rfl, .inl ⟨hnew, rfl⟩⟩
    · next hsame =>
      split at h
      · next hroom =>
        obtain ⟨rfl, rfl, rfl⟩ := Option.some.inj h
        have hlast := not_not.mp hsame
        refine ⟨⟨[], tv, rfl, rfl⟩, ?_, rfl, .inr ⟨hlast, hroom, rfl⟩⟩
        rw [Statics.last, hlast]
      · obtain ⟨⟨passed, tv', rfl, htime⟩, hrest⟩ := ih h
        exact ⟨⟨tv :: passed, tv', rfl, htime⟩, hrest⟩

/-- The readings are not behind a time, and do not go back. -/
structure Forward (time : UInt64) (readings : List Timeval) : Prop where
  ahead : ∀ tv ∈ readings, time ≤ get_system_time tv
  sorted : (readings.map get_system_time).Pairwise (· ≤ ·)

/-- On a clock that does not go back a call counts on or starts a later tick. -/
theorem tickLoop_follows {s s' : Statics} {readings rest : List Timeval} {d : Draw}
    (hforward : Forward s.time_last readings) (h : tickLoop s readings = some (d, s', rest)) :
    Follows s.last.stamp d.stamp ∧ Forward s'.time_last rest := by
  obtain ⟨⟨passed, tv, rfl, htime⟩, hlast, -, hcases⟩ := tickLoop_inv h
  have hahead := hforward.ahead tv (List.mem_append_right _ List.mem_cons_self)
  have hsorted := hforward.sorted
  rw [List.map_append, List.map_cons] at hsorted
  obtain ⟨hrest, hsorted⟩ := List.pairwise_cons.mp (List.pairwise_append.mp hsorted).2.1
  have htime' : s'.time_last = get_system_time tv := by
    rw [← htime, ← hlast]
    rfl
  refine ⟨?_, ⟨?_, hsorted⟩⟩
  · rw [← htime] at hahead
    rcases hcases with ⟨hne, hzero⟩ | ⟨hsame, hroom, hcount⟩
    · refine .inr ⟨?_, ?_⟩
      · exact Nat.lt_of_le_of_ne hahead fun heq => hne (UInt64.toNat_inj.mp heq)
      · rw [Draw.stamp, hzero]
        rfl
    · refine .inl ⟨?_, ?_⟩
      · exact congrArg UInt64.toNat hsame.symm
      · have hlt : s.ids_this_tick.toNat < 1024 := hroom
        simp only [Draw.stamp, Statics.last, hcount, UInt16.toNat_add]
        exact Nat.mod_eq_of_lt (show s.ids_this_tick.toNat + 1 < 2 ^ 16 by omega)
  · intro tv' htv'
    rw [htime']
    exact hrest _ (List.mem_map_of_mem htv')

/-! ## Many calls -/

/-- What holds of a draw that was made from some readings. -/
def Drawn (readings : List Timeval) (d : Draw) : Prop :=
  d.ids_this_tick ≤ UIDS_PER_TICK ∧ ∃ tv ∈ readings, d.time_now = get_system_time tv

theorem drawn_mono {readings more : List Timeval} {d : Draw} (h : Drawn readings d)
    (hsub : readings ⊆ more) : Drawn more d := by
  obtain ⟨hids, tv, hmem, htime⟩ := h
  exact ⟨hids, tv, hsub hmem, htime⟩

theorem tickLoop_drawn {s s' : Statics} {readings rest : List Timeval} {d : Draw}
    (h : tickLoop s readings = some (d, s', rest)) : Drawn readings d ∧ rest ⊆ readings := by
  obtain ⟨⟨passed, tv, rfl, htime⟩, -, -, hcases⟩ := tickLoop_inv h
  refine ⟨⟨?_, tv, List.mem_append_right _ List.mem_cons_self, htime⟩, ?_⟩
  · rcases hcases with ⟨-, hzero⟩ | ⟨-, hroom, hcount⟩
    · rw [hzero]
      decide
    · have hlt : s.ids_this_tick.toNat < 1024 := hroom
      rw [hcount, UInt16.le_iff_toNat_le, UInt16.toNat_add]
      change (s.ids_this_tick.toNat + 1) % 2 ^ 16 ≤ 1024
      omega
  · intro tv' htv'
    exact List.mem_append_right _ (List.mem_cons_of_mem tv htv')

theorem draw_times_succ {n : ℕ} {s : Statics} {readings : List Timeval} {draws : List Draw}
    (h : draw_times (n + 1) s readings = some draws) : ∃ d s' rest more,
    get_current_time s readings = some (d, s', rest) ∧ draw_times n s' rest = some more ∧
      draws = d :: more := by
  obtain ⟨⟨d, s', rest⟩, hcall, hbehind⟩ := Option.bind_eq_some_iff.mp h
  obtain ⟨more, hmore, hdraws⟩ := Option.bind_eq_some_iff.mp hbehind
  exact ⟨d, s', rest, more, hcall, hmore, (Option.some.inj hdraws).symm⟩

theorem draw_times_drawn {n : ℕ} {s : Statics} {readings : List Timeval} {draws : List Draw}
    (h : draw_times n s readings = some draws) : ∀ d ∈ draws, Drawn readings d := by
  induction n generalizing s readings draws with
  | zero =>
    obtain rfl := Option.some.inj h
    exact fun d hd => absurd hd List.not_mem_nil
  | succ n ih =>
    obtain ⟨d, s', rest, more, hcall, hmore, rfl⟩ := draw_times_succ h
    have hstep : Drawn readings d ∧ rest ⊆ readings := by
      rw [get_current_time] at hcall
      split at hcall
      · exact tickLoop_drawn hcall
      · obtain ⟨hdrawn, hsub⟩ := tickLoop_drawn hcall
        exact ⟨drawn_mono hdrawn (List.tail_subset readings),
          fun tv htv => List.tail_subset readings (hsub htv)⟩
    intro e he
    rcases List.mem_cons.mp he with rfl | he
    · exact hstep.1
    · exact drawn_mono (ih hmore e he) hstep.2

theorem draw_times_follow {n : ℕ} {s : Statics} {readings : List Timeval} {draws : List Draw}
    (hinited : s.inited = true) (hforward : Forward s.time_last readings)
    (h : draw_times n s readings = some draws) :
    (s.last.stamp :: draws.map Draw.stamp).IsChain Follows := by
  induction n generalizing s readings draws with
  | zero =>
    obtain rfl := Option.some.inj h
    exact List.isChain_singleton _
  | succ n ih =>
    obtain ⟨d, s', rest, more, hcall, hmore, rfl⟩ := draw_times_succ h
    rw [get_current_time, if_pos hinited] at hcall
    obtain ⟨-, hlast, hinited', -⟩ := tickLoop_inv hcall
    obtain ⟨hfollows, hforward'⟩ := tickLoop_follows hforward hcall
    have hrest := ih (hinited'.trans hinited) hforward' hmore
    rw [hlast] at hrest
    exact List.isChain_cons_cons.mpr ⟨hfollows, hrest⟩

/-- A clock that does not go back, in a range where sixty bits hold the time. -/
structure Running (readings : List Timeval) : Prop where
  sorted : (readings.map get_system_time).Pairwise (· ≤ ·)
  started : ∀ tv ∈ readings, 0 < get_system_time tv
  fits : ∀ tv ∈ readings, (get_system_time tv).toNat + 1024 < 2 ^ 60

theorem fresh_stamps {n : ℕ} {readings : List Timeval} {draws : List Draw}
    (hrunning : Running readings) (h : draw_times n fresh readings = some draws) :
    (∀ a ∈ (draws.map Draw.stamp).head?, a.index = 0) ∧
      (draws.map Draw.stamp).IsChain Follows := by
  cases n with
  | zero =>
    obtain rfl := Option.some.inj h
    exact ⟨nofun, List.isChain_nil⟩
  | succ n =>
    obtain ⟨d, s, rest, more, hcall, hmore, rfl⟩ := draw_times_succ h
    rw [get_current_time, if_neg (by decide)] at hcall
    have htail := List.tail_subset readings
    have hforward : Forward 0 readings.tail := by
      refine ⟨fun tv _ => UInt64.zero_le, ?_⟩
      rw [List.map_tail]
      exact hrunning.sorted.tail
    obtain ⟨⟨passed, tv, hreadings, htime⟩, hlast, hinited, hcases⟩ := tickLoop_inv hcall
    obtain ⟨-, hforward'⟩ := tickLoop_follows hforward hcall
    refine ⟨?_, ?_⟩
    · rintro a ha
      obtain rfl := Option.some.inj ha
      rcases hcases with ⟨-, hzero⟩ | ⟨hsame, -⟩
      · rw [Draw.stamp, hzero]
        rfl
      · have hmem : tv ∈ readings := htail (hreadings ▸ List.mem_append_right _ List.mem_cons_self)
        have hpos := hrunning.started tv hmem
        rw [← htime, ← hsame] at hpos
        exact absurd hpos (by decide)
    · have hchain := draw_times_follow hinited hforward' hmore
      rw [hlast] at hchain
      exact hchain

/-! ## Identifiers of a run -/

/-- A draw whose tick is over does not reach the tick of the next one. -/
def Apart (d e : Draw) : Prop := d.time_now < e.time_now → d.timestamp < e.time_now

def Made (d : Draw) (u : Quid) : Prop :=
  ∃ clockseq flag subc tag, quid_create d.timestamp clockseq flag subc tag = .ok u

section Identifiers

variable {n : ℕ} {readings : List Timeval} {draws : List Draw}

theorem timestamp_time {d : Draw} (hrunning : Running readings) (h : Drawn readings d) :
    d.timestamp.toNat = d.stamp.time ∧ d.timestamp.toNat < 2 ^ 60 := by
  obtain ⟨hids, tv, hmem, htime⟩ := h
  have hfits := hrunning.fits tv hmem
  rw [← htime] at hfits
  have hindex : d.ids_this_tick.toNat ≤ 1024 := hids
  have htotal : d.timestamp.toNat = d.time_now.toNat + d.ids_this_tick.toNat := by
    rw [Draw.timestamp, UInt64.toNat_add, UInt16.toNat_toUInt64]
    exact Nat.mod_eq_of_lt (by omega)
  exact ⟨htotal, by omega⟩

theorem apart_iff {d e : Draw} (hrunning : Running readings) (hd : Drawn readings d) :
    Spaced d.stamp e.stamp ↔ Apart d e := by
  rw [Apart, UInt64.lt_iff_toNat_lt, UInt64.lt_iff_toNat_lt, (timestamp_time hrunning hd).1]
  rfl

/-- The timestamps of a run are pairwise different exactly if no tick gives out so many that they
reach the next one. -/
theorem timestamps_nodup_iff (hrunning : Running readings)
    (h : draw_times n fresh readings = some draws) :
    (draws.map Draw.timestamp).Nodup ↔ draws.IsChain Apart := by
  obtain ⟨hfirst, hfollows⟩ := fresh_stamps hrunning h
  have hdrawn := draw_times_drawn h
  have htimes : (draws.map Draw.timestamp).map UInt64.toNat =
      (draws.map Draw.stamp).map Stamp.time := by
    rw [List.map_map, List.map_map]
    exact List.map_congr_left fun d hd => (timestamp_time hrunning (hdrawn d hd)).1
  have hinjective : Function.Injective UInt64.toNat := fun a b => UInt64.toNat_inj.mp
  rw [← List.nodup_map_iff hinjective, htimes, times_nodup_iff hfirst hfollows, List.isChain_map]
  exact List.IsChain.iff_of_mem_imp fun d e hd _ => apart_iff hrunning (hdrawn d hd)

theorem made_injective {d e : Draw} {u v : Quid} (hu : Made d u) (hv : Made e v)
    (hd : d.timestamp.toNat < 2 ^ 60) (he : e.timestamp.toNat < 2 ^ 60)
    (h : quid_tostring u.toCuuid = quid_tostring v.toCuuid) : d.timestamp = e.timestamp := by
  obtain ⟨_, _, _, _, hcreate⟩ := hu
  obtain ⟨_, _, _, _, hcreate'⟩ := hv
  obtain ⟨hversion, -, hlow, htime, -⟩ := quid_create_inv hcreate
  obtain ⟨hversion', -, hlow', htime', -⟩ := quid_create_inv hcreate'
  obtain ⟨u, version⟩ := u
  obtain ⟨v, version'⟩ := v
  obtain rfl : version = version' := hversion.trans hversion'.symm
  obtain rfl : u = v := quid_tostring_injective hlow hlow' h
  have hsame := htime.symm.trans htime'
  rw [Nat.mod_eq_of_lt hd, Nat.mod_eq_of_lt he] at hsame
  exact UInt64.toNat_inj.mp hsame

theorem made_with {draws : List Draw} {quids : List Quid} {u : Quid}
    (hmade : List.Forall₂ Made draws quids) (hu : u ∈ quids) : ∃ d ∈ draws, Made d u := by
  induction hmade with
  | nil => exact absurd hu List.not_mem_nil
  | @cons d v draws quids hv _ ih =>
    rcases List.mem_cons.mp hu with rfl | hu
    · exact ⟨d, List.mem_cons_self, hv⟩
    · obtain ⟨e, he, hmade⟩ := ih hu
      exact ⟨e, List.mem_cons_of_mem d he, hmade⟩

theorem texts_nodup {draws : List Draw} {quids : List Quid}
    (hmade : List.Forall₂ Made draws quids) (hfits : ∀ d ∈ draws, d.timestamp.toNat < 2 ^ 60)
    (hnodup : (draws.map Draw.timestamp).Nodup) :
    (quids.map fun u => quid_tostring u.toCuuid).Nodup := by
  induction hmade with
  | nil => exact List.nodup_nil
  | @cons d u draws quids hu hrest ih =>
    obtain ⟨hnot, hnodup⟩ := List.nodup_cons.mp hnodup
    have hbehind : ∀ e ∈ draws, e.timestamp.toNat < 2 ^ 60 :=
      fun e he => hfits e (List.mem_cons_of_mem d he)
    refine List.nodup_cons.mpr ⟨?_, ih hbehind hnodup⟩
    intro hmem
    obtain ⟨v, hv, htext⟩ := List.mem_map.mp hmem
    obtain ⟨e, he, hmade⟩ := made_with hrest hv
    have hsame := made_injective hu hmade (hfits d List.mem_cons_self) (hbehind e he) htext.symm
    exact hnot (hsame ▸ List.mem_map_of_mem he)

theorem quids_nodup {quids : List Quid} (hrunning : Running readings)
    (h : draw_times n fresh readings = some draws) (hapart : draws.IsChain Apart)
    (hmade : List.Forall₂ Made draws quids) :
    (quids.map fun u => quid_tostring u.toCuuid).Nodup := by
  refine texts_nodup hmade ?_ ((timestamps_nodup_iff hrunning h).mpr hapart)
  intro d hd
  exact (timestamp_time hrunning (draw_times_drawn h d hd)).2

/-- On a clock that does not go back the timestamps of a run are pairwise different exactly if no
tick gives out so many that they reach the next tick, and then so are the identifiers. -/
theorem identifiers_distinct (hrunning : Running readings)
    (h : draw_times n fresh readings = some draws) :
    ((draws.map Draw.timestamp).Nodup ↔ draws.IsChain Apart) ∧
      (draws.IsChain Apart → ∀ quids, List.Forall₂ Made draws quids →
        (quids.map fun u => quid_tostring u.toCuuid).Nodup) := by
  refine ⟨timestamps_nodup_iff hrunning h, ?_⟩
  intro hapart quids hmade
  exact quids_nodup hrunning h hapart hmade

end Identifiers

theorem made_exists (draws : List Draw) : ∃ quids, List.Forall₂ Made draws quids := by
  induction draws with
  | nil => exact ⟨[], List.Forall₂.nil⟩
  | cons d draws ih =>
    obtain ⟨quids, hmade⟩ := ih
    obtain ⟨node, hcreate, -⟩ := quid_create_ok d.timestamp 0 0 0 none
    exact ⟨_ :: quids, List.Forall₂.cons ⟨0, 0, 0, none, hcreate⟩ hmade⟩

/-- The first reading is thrown away, and the clock goes on with the last one. -/
def four_readings : List Timeval := [⟨1000, 0⟩, ⟨1000, 0⟩, ⟨1000, 0⟩, ⟨1000, 1⟩]

def three_draws : List Draw :=
  [⟨116444746000000000, 0⟩, ⟨116444746000000000, 1⟩, ⟨116444746000000010, 0⟩]

theorem four_readings_drawn : draw_times 3 fresh four_readings = some three_draws := by decide

theorem four_readings_running : Running four_readings := ⟨by decide, by decide, by decide⟩

theorem identifiers_distinct_three : ∃ quids, List.Forall₂ Made three_draws quids ∧
    (quids.map fun u => quid_tostring u.toCuuid).Nodup := by
  obtain ⟨quids, hmade⟩ := made_exists three_draws
  have hapart : three_draws.IsChain Apart :=
    .cons_cons (fun h => absurd h (by decide)) (.cons_cons (fun _ => by decide) (.singleton _))
  exact ⟨quids, hmade,
    (identifiers_distinct four_readings_running four_readings_drawn).2 hapart quids hmade⟩

/-! ## The time that an identifier shows -/

theorem toInt64_ofNat {x : UInt64} {n : ℕ} (h : x.toNat = n) : x.toInt64 = Int64.ofNat n := by
  have hof : Int64.ofNat n = (UInt64.ofNat n).toInt64 := rfl
  rw [hof, ← h, UInt64.ofNat_toNat]

/-- Ticks of 100 ns since 1601, from seconds and microseconds since 1970. -/
def ticks (s us : ℕ) : ℕ := (11644473600 + s) * 10000000 + 10 * us

theorem get_system_time_toNat {s us : ℕ} (hus : us < 1000000) (h : ticks s us < 2 ^ 64) :
    (get_system_time ⟨Int64.ofNat s, Int64.ofNat us⟩).toNat = ticks s us := by
  unfold ticks at h ⊢
  have hsec : (Int64.ofNat s).toUInt64.toNat = s := by
    change s % 2 ^ 64 = s
    omega
  have husec : (Int64.ofNat us * 10).toUInt64.toNat = 10 * us := by
    change ((us % 2 ^ 64) * 10) % 2 ^ 64 = 10 * us
    omega
  have hepoch : EPOCH_DIFF.toNat = 11644473600 := rfl
  have hscale : (10000000 : UInt64).toNat = 10000000 := rfl
  rw [get_system_time, UInt64.toNat_add, UInt64.toNat_mul, UInt64.toNat_add, hsec, husec, hepoch,
    hscale]
  omega

/-- A time of seconds and microseconds, later by a tenth of a microsecond for each count. -/
def later (s us k : ℕ) : Timeval :=
  ⟨Int64.ofNat (s + (us + k / 10) / 1000000), Int64.ofNat ((us + k / 10) % 1000000)⟩

theorem timeval_toNat {time : UInt64} {s us k : ℕ} (hus : us < 1000000)
    (h : time.toNat = ticks s us + k) :
    timeval time = later s us k := by
  unfold ticks at h
  have hten : (time / 10).toNat = (11644473600 + s) * 1000000 + (us + k / 10) := by
    rw [UInt64.toNat_div, h]
    change ((11644473600 + s) * 10000000 + 10 * us + k) / 10 = _
    omega
  have husec : (time / 10 % 1000000).toNat = (us + k / 10) % 1000000 := by
    rw [UInt64.toNat_mod, hten]
    change ((11644473600 + s) * 1000000 + (us + k / 10)) % 1000000 = _
    omega
  have hle : time / 10 % 1000000 ≤ time / 10 := by
    rw [UInt64.le_iff_toNat_le, husec, hten]
    omega
  have hwhole : ((time / 10 - time / 10 % 1000000) / 1000000).toNat =
      11644473600 + (s + (us + k / 10) / 1000000) := by
    rw [UInt64.toNat_div, UInt64.toNat_sub_of_le _ _ hle, husec, hten]
    change ((11644473600 + s) * 1000000 + (us + k / 10) - (us + k / 10) % 1000000) / 1000000 = _
    omega
  have hepoch : EPOCH_DIFF.toNat = 11644473600 := rfl
  have hsec : ((time / 10 - time / 10 % 1000000) / 1000000 - EPOCH_DIFF).toNat =
      s + (us + k / 10) / 1000000 := by
    rw [UInt64.toNat_sub_of_le, hwhole, hepoch]
    · omega
    · rw [UInt64.le_iff_toNat_le, hwhole, hepoch]
      omega
  rw [timeval, toInt64_ofNat hsec, toInt64_ofNat husec, later]

structure Reading (tv : Timeval) (s us : ℕ) : Prop where
  sec : tv.tv_sec = Int64.ofNat s
  usec : tv.tv_usec = Int64.ofNat us
  below : us < 1000000
  fits : ticks s us + 1024 < 2 ^ 60

theorem running_of_readings {readings : List Timeval}
    (hclock : ∀ tv ∈ readings, ∃ s us, Reading tv s us)
    (hsorted : (readings.map get_system_time).Pairwise (· ≤ ·)) : Running readings := by
  have hshown : ∀ tv ∈ readings, ∃ s us, (get_system_time tv).toNat = ticks s us ∧
      ticks s us + 1024 < 2 ^ 60 := by
    intro tv htv
    obtain ⟨s, us, hsec, husec, hbelow, hfits⟩ := hclock tv htv
    have hnow := get_system_time_toNat hbelow (show ticks s us < 2 ^ 64 by omega)
    rw [← hsec, ← husec] at hnow
    exact ⟨s, us, hnow, hfits⟩
  refine ⟨hsorted, ?_, ?_⟩
  · intro tv htv
    obtain ⟨s, us, hnow, -⟩ := hshown tv htv
    rw [UInt64.lt_iff_toNat_lt, hnow]
    exact Nat.lt_of_lt_of_le (Nat.zero_lt_succ 0) (show 1 ≤ ticks s us by unfold ticks; omega)
  · intro tv htv
    obtain ⟨s, us, hnow, hfits⟩ := hshown tv htv
    rwa [hnow]

/-- In a run the added number counts the draws that the same time gave before. -/
theorem draw_index {n : ℕ} {readings : List Timeval} {past rest : List Draw} {d : Draw}
    (hrunning : Running readings) (h : draw_times n fresh readings = some (past ++ d :: rest)) :
    d.ids_this_tick.toNat = past.countP (·.time_now = d.time_now) := by
  obtain ⟨hfirst, hfollows⟩ := fresh_stamps hrunning h
  rw [List.map_append, List.map_cons] at hfirst hfollows
  have hcount := (index_eq_count hfirst hfollows).1
  rw [List.countP_map] at hcount
  refine hcount.trans (List.countP_congr fun e _ => ?_)
  simp [Draw.stamp, UInt64.toNat_inj]

/-- On a clock that does not go back every identifier of a run shows the reading that it was made
at, later by a tenth of a microsecond for each identifier that the same time gave before; these
are at most 1024. -/
theorem quid_timeval_drawn {n : ℕ} {readings : List Timeval} {past rest : List Draw} {d : Draw}
    {u : Quid} (hclock : ∀ tv ∈ readings, ∃ s us, Reading tv s us)
    (hsorted : (readings.map get_system_time).Pairwise (· ≤ ·))
    (h : draw_times n fresh readings = some (past ++ d :: rest)) (hmade : Made d u) :
    ∃ tv ∈ readings, ∃ s us, Reading tv s us ∧ d.time_now = get_system_time tv ∧
      past.countP (·.time_now = d.time_now) ≤ 1024 ∧
      quid_timeval u = later s us (past.countP (·.time_now = d.time_now)) := by
  have hcount := draw_index (running_of_readings hclock hsorted) h
  obtain ⟨hids, tv, hmem, htime⟩ := draw_times_drawn h d (by simp)
  obtain ⟨s, us, hreading⟩ := hclock tv hmem
  have hindex : d.ids_this_tick.toNat ≤ 1024 := hids
  refine ⟨tv, hmem, s, us, hreading, htime, hcount ▸ hindex, ?_⟩
  obtain ⟨hsec, husec, hbelow, hfits⟩ := hreading
  obtain ⟨clockseq, flag, subc, tag, hcreate⟩ := hmade
  obtain ⟨-, -, -, hread, -⟩ := quid_create_inv hcreate
  have hroom : ticks s us < 2 ^ 64 := by omega
  have hnow := get_system_time_toNat hbelow hroom
  rw [← hsec, ← husec] at hnow
  change (get_system_time tv).toNat = _ at hnow
  rw [← htime] at hnow
  have htotal : d.timestamp.toNat = ticks s us + d.ids_this_tick.toNat := by
    rw [Draw.timestamp, UInt64.toNat_add, UInt16.toNat_toUInt64, hnow]
    exact Nat.mod_eq_of_lt (by omega)
  rw [htotal, Nat.mod_eq_of_lt (by omega)] at hread
  rw [← hcount]
  exact timeval_toNat hbelow hread

theorem four_readings_clock : ∀ tv ∈ four_readings, ∃ s us, Reading tv s us := by
  simp only [four_readings, List.forall_mem_cons]
  exact ⟨⟨1000, 0, rfl, rfl, by decide, by decide⟩, ⟨1000, 0, rfl, rfl, by decide, by decide⟩,
    ⟨1000, 0, rfl, rfl, by decide, by decide⟩, ⟨1000, 1, rfl, rfl, by decide, by decide⟩, nofun⟩

theorem quid_timeval_drawn_four : ∃ u, Made ⟨116444746000000000, 1⟩ u ∧
    ∃ tv ∈ four_readings, ∃ s us, Reading tv s us ∧ 116444746000000000 = get_system_time tv ∧
      1 ≤ 1024 ∧ quid_timeval u = later s us 1 := by
  obtain ⟨node, hcreate, -⟩ := quid_create_ok (Draw.timestamp ⟨116444746000000000, 1⟩) 0 0 0 none
  have hmade : Made ⟨116444746000000000, 1⟩ _ := ⟨0, 0, 0, none, hcreate⟩
  exact ⟨_, hmade, @quid_timeval_drawn 3 four_readings [⟨116444746000000000, 0⟩]
    [⟨116444746000000010, 0⟩] _ _ four_readings_clock four_readings_running.sorted
    four_readings_drawn hmade⟩

end QuidClock
