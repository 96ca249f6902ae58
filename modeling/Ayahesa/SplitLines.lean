import Ayahesa.ConfigLoading
import Ayahesa.IniDocument

/-! # Lines that do not fit the buffer

`fgets` hands out a long line in pieces, and the parser takes each of them for a line of its
own. -/
namespace SplitLines

open CMemory CompatStrings AppConfig IniParser IniLines IniCalls ConfigLoading LineReader
open IniDocument (Blank stripped_blank stripped_append_blank newline)

/-- A piece that the parser reads, and what it knows in front of it. -/
structure Reading (σ : Type) where
  st : IniState
  user : σ
  lineno : ℕ
  text : Bytes

section Reading

variable {σ : Type} (handler : Loader σ)

def Reading.kind (r : Reading σ) : LineKind := kind_of r.lineno r.st.prev_name r.text

def Reading.call (r : Reading σ) : Option Setting := call_of r.st r.lineno r.kind

def Reading.outcome (r : Reading σ) : Proc (IniState × σ × ℕ) :=
  act handler r.st r.user r.lineno r.kind

/-- Behind the piece the parser stops: it reports an error, or the handler has aborted. -/
def Reading.Stops (r : Reading σ) : Prop := ∀ st user, r.outcome handler ≠ .ok (st, user, 0)

def next_reading (st : IniState) (user : σ) (lineno : ℕ) (piece : Bytes) : Reading σ :=
  ⟨st, user, lineno + 1, c_string piece⟩

/-- The pieces that are read, up to the one at which the parser stops. -/
def readings (st : IniState) (user : σ) (lineno : ℕ) : List Bytes → List (Reading σ)
  | [] => []
  | piece :: rest =>
    next_reading st user lineno piece ::
      match (next_reading st user lineno piece).outcome handler with
      | .ok (st, user, 0) => readings st user (lineno + 1) rest
      | _ => []

def file_readings (user : σ) (file : Bytes) : List (Reading σ) :=
  readings handler ⟨[], []⟩ user 0 (fgets_lines file)

/-- Those of a line between the rest of its file. -/
def line_readings (user : σ) (front line behind : Bytes) : List (Reading σ) :=
  ((file_readings handler user (front ++ (line ++ behind))).drop (fgets_lines front).length).take
    (fgets_lines line).length

/-- A line of a file ends with its newline or with the file. -/
def IsLine (line behind : Bytes) : Prop :=
  ∃ text, newline ∉ text ∧ (line = text ++ [newline] ∨ (line = text ∧ behind = []))

def line_call (first : Reading σ) (line : Bytes) : Option Setting :=
  call_of first.st first.lineno (kind_of first.lineno first.st.prev_name (c_string line))

/-- An error is reported for the line, or what it says is handed on at most once and complete; no
piece behind the first one is taken for anything. -/
structure Whole (line : Bytes) (rs : List (Reading σ)) : Prop where
  complete : (∃ r ∈ rs, r.Stops handler) ∨ ((rs.filterMap Reading.call).length ≤ 1 ∧
    ∀ first, rs.head? = some first → ∀ s ∈ rs.filterMap Reading.call, line_call first line = some s)
  alone : ∀ r ∈ rs.tail, r.kind = .malformed ∨ trimmed r.text = []

/-- Pieces that are blank up to the end, or up to a malformed one. -/
def Absorbed (prev_name : Bytes) : List Bytes → Prop
  | [] => True
  | piece :: rest =>
    line_kind (0 < leading (c_string piece)) prev_name (trimmed (c_string piece)) = .malformed ∨
      (trimmed (c_string piece) = [] ∧ Absorbed prev_name rest)

/-! ## The readings are what the parser does -/

variable {handler} {st st' : IniState} {user user' : σ} {lineno error : ℕ} {pieces : List Bytes}

theorem reading_cases (r : Reading σ) (handler : Loader σ) :
    (∃ st user, r.outcome handler = .ok (st, user, 0)) ∨ r.Stops handler := by
  by_cases h : ∃ st user, r.outcome handler = .ok (st, user, 0)
  · exact Or.inl h
  · exact Or.inr fun st user heq => h ⟨st, user, heq⟩

theorem readings_next {piece : Bytes} {rest : List Bytes}
    (h : (next_reading st user lineno piece).outcome handler = .ok (st', user', 0)) :
    readings handler st user lineno (piece :: rest) =
      next_reading st user lineno piece :: readings handler st' user' (lineno + 1) rest := by
  rw [readings, h]
  rfl

theorem readings_stop {piece : Bytes} {rest : List Bytes}
    (h : (next_reading st user lineno piece).Stops handler) :
    readings handler st user lineno (piece :: rest) = [next_reading st user lineno piece] := by
  rw [readings]
  split
  · next st₁ user₁ heq => exact absurd heq (h st₁ user₁)
  · rfl

theorem handle_traced (calls : List Setting) (sect name value : Bytes) :
    handle (traced handler) (user, calls) sect name value lineno =
      (handle handler user sect name value lineno).map fun (user, error) =>
        ((user, calls ++ [⟨sect, name, value, lineno⟩]), error) := by
  unfold handle
  rw [traced]
  cases handler user sect name value lineno <;> rfl

theorem act_traced (calls : List Setting) (kind : LineKind) :
    act (traced handler) st (user, calls) lineno kind =
      (act handler st user lineno kind).map fun (st', user, error) =>
        (st', (user, calls ++ (call_of st lineno kind).toList), error) := by
  cases kind with
  | skip | header sect | malformed => simp [act, call_of, Except.map]
  | more value =>
    rw [act, act, handle_traced]
    cases handle handler user st.sect st.prev_name value lineno <;> rfl
  | pair name value =>
    rw [act, act, handle_traced]
    cases handle handler user st.sect name value lineno <;> rfl

/-- The calls of the parser are those of the readings, and its error is that of the last one. -/
theorem ini_lines_readings {calls calls' : List Setting}
    (h : ini_lines (traced handler) st (user, calls) lineno (pieces.map (· ++ [0])) =
      .ok ((user', calls'), error)) :
    calls' = calls ++ (readings handler st user lineno pieces).filterMap Reading.call ∧
      (error ≠ 0 ↔ ∃ r ∈ readings handler st user lineno pieces, r.Stops handler) := by
  induction pieces generalizing st user lineno calls with
  | nil =>
    obtain ⟨hmk, rfl⟩ := Prod.mk.inj (Except.ok.inj h)
    obtain ⟨-, rfl⟩ := Prod.mk.inj hmk
    simp [readings]
  | cons piece rest ih =>
    obtain ⟨r, hr⟩ : ∃ r, r = next_reading st user lineno piece := ⟨_, rfl⟩
    have hact : act (traced handler) st (user, calls) (lineno + 1)
        (kind_of (lineno + 1) st.prev_name (c_string piece)) =
          (r.outcome handler).map fun (st', user, error) =>
            (st', (user, calls ++ r.call.toList), error) := by
      rw [act_traced, hr]
      rfl
    have hhead : ∀ rs : List (Reading σ), (r :: rs).filterMap Reading.call =
        r.call.toList ++ rs.filterMap Reading.call := by
      intro rs
      rw [List.filterMap_cons]
      cases r.call <;> rfl
    rw [List.map_cons, ini_lines_cons, hact] at h
    rcases reading_cases r handler with ⟨st₁, user₁, hout⟩ | hstops
    · rw [hout] at h
      obtain ⟨hcalls, herror⟩ := ih h
      have hgoes : ¬r.Stops handler := fun hstops => hstops st₁ user₁ hout
      rw [readings_next (hr ▸ hout), ← hr, hhead, ← List.append_assoc]
      exact ⟨hcalls, by rw [herror]; simp [hgoes]⟩
    · rw [readings_stop (hr ▸ hstops), ← hr, hhead, List.filterMap_nil, List.append_nil]
      cases hout : r.outcome handler with
      | error e =>
        rw [hout] at h
        cases h
      | ok out =>
        obtain ⟨st₁, user₁, error₁⟩ := out
        have hne : error₁ ≠ 0 := by
          rintro rfl
          exact hstops st₁ user₁ hout
        rw [hout] at h
        simp only [Except.map, bind, Except.bind, if_pos hne] at h
        obtain ⟨hmk, rfl⟩ := Prod.mk.inj (Except.ok.inj h)
        obtain ⟨-, rfl⟩ := Prod.mk.inj hmk
        exact ⟨rfl, iff_of_true hne ⟨r, List.mem_singleton.mpr rfl, hstops⟩⟩

theorem ini_parse_readings {calls : List Setting} {file : Bytes}
    (h : ini_parse_file (traced handler) (user, []) file = .ok ((user', calls), error)) :
    calls = (file_readings handler user file).filterMap Reading.call ∧
      (error ≠ 0 ↔ ∃ r ∈ file_readings handler user file, r.Stops handler) :=
  ini_lines_readings h

/-! ## The readings of one line -/

theorem drop_readings (front pieces : List Bytes) (st : IniState) (user : σ) (lineno : ℕ) :
    (readings handler st user lineno (front ++ pieces)).drop front.length = [] ∨
      ∃ st' user' lineno', (readings handler st user lineno (front ++ pieces)).drop front.length =
        readings handler st' user' lineno' pieces := by
  induction front generalizing st user lineno with
  | nil => exact Or.inr ⟨st, user, lineno, rfl⟩
  | cons piece front ih =>
    rcases reading_cases (next_reading st user lineno piece) handler with
      ⟨st₁, user₁, hout⟩ | hstops
    · rw [List.cons_append, readings_next hout]
      exact ih st₁ user₁ (lineno + 1)
    · rw [List.cons_append, readings_stop hstops]
      exact Or.inl List.drop_nil

theorem take_readings (pieces behind : List Bytes) (st : IniState) (user : σ) (lineno : ℕ) :
    (readings handler st user lineno (pieces ++ behind)).take pieces.length =
      readings handler st user lineno pieces := by
  induction pieces generalizing st user lineno with
  | nil => rfl
  | cons piece pieces ih =>
    rcases reading_cases (next_reading st user lineno piece) handler with
      ⟨st₁, user₁, hout⟩ | hstops
    · rw [List.cons_append, readings_next hout, readings_next hout, List.length_cons,
        List.take_succ_cons, ih st₁ user₁ (lineno + 1)]
    · rw [List.cons_append, readings_stop hstops, readings_stop hstops, List.length_cons,
        List.take_succ_cons, List.take_nil]

/-- A line is read from where the lines in front of it lead to, if they do. -/
theorem line_readings_cases {front line behind : Bytes} (hfront : Closed newline front)
    (hline : IsLine line behind) (user : σ) :
    line_readings handler user front line behind = [] ∨
      ∃ st user' lineno, line_readings handler user front line behind =
        readings handler st user' lineno (fgets_lines line) := by
  have hrest : fgets_lines (line ++ behind) = fgets_lines line ++ fgets_lines behind := by
    obtain ⟨text, -, rfl | ⟨rfl, rfl⟩⟩ := hline
    · exact lines_append (Or.inr ⟨text, rfl⟩) behind
    · rw [List.append_nil]
      exact (List.append_nil _).symm
  have hfile : fgets_lines (front ++ (line ++ behind)) =
      fgets_lines front ++ (fgets_lines line ++ fgets_lines behind) := by
    rw [← hrest]
    exact lines_append hfront (line ++ behind)
  rw [line_readings, file_readings, hfile]
  rcases drop_readings (fgets_lines front) (fgets_lines line ++ fgets_lines behind) ⟨[], []⟩ user 0
    with hnil | ⟨st, user', lineno, hdrop⟩
  · rw [hnil]
    exact Or.inl List.take_nil
  · rw [hdrop, take_readings]
    exact Or.inr ⟨st, user', lineno, rfl⟩

/-- The calls that the parser makes for a line stand behind those for the lines in front of it,
and an error at the line is the error of the file. -/
theorem line_calls {front line behind : Bytes} {calls : List Setting}
    (hfront : Closed newline front)
    (h : ini_parse_file (traced handler) (user, []) (front ++ (line ++ behind)) =
      .ok ((user', calls), error)) :
    (∃ after, calls = (file_readings handler user front).filterMap Reading.call ++
      ((line_readings handler user front line behind).filterMap Reading.call ++ after)) ∧
    ((∃ r ∈ line_readings handler user front line behind, r.Stops handler) → error ≠ 0) := by
  obtain ⟨hcalls, herror⟩ := ini_parse_readings h
  have hlines : fgets_lines (front ++ (line ++ behind)) =
      fgets_lines front ++ fgets_lines (line ++ behind) := lines_append hfront (line ++ behind)
  obtain ⟨rs, hrs⟩ : ∃ rs, file_readings handler user (front ++ (line ++ behind)) = rs := ⟨_, rfl⟩
  have htake : rs.take (fgets_lines front).length = file_readings handler user front := by
    rw [← hrs, file_readings, hlines]
    exact take_readings (fgets_lines front) (fgets_lines (line ++ behind)) ⟨[], []⟩ user 0
  have hline : (rs.drop (fgets_lines front).length).take (fgets_lines line).length =
      line_readings handler user front line behind := by rw [line_readings, hrs]
  have hsplit : rs = file_readings handler user front ++
      (line_readings handler user front line behind ++
        (rs.drop (fgets_lines front).length).drop (fgets_lines line).length) := by
    rw [← htake, ← hline, List.take_append_drop, List.take_append_drop]
  rw [hrs] at hcalls herror
  constructor
  · refine ⟨((rs.drop (fgets_lines front).length).drop (fgets_lines line).length).filterMap
      Reading.call, ?_⟩
    rw [← List.filterMap_append, ← List.filterMap_append, ← hsplit]
    exact hcalls
  · rintro ⟨r, hr, hstops⟩
    rw [← hline] at hr
    exact herror.mpr ⟨r, List.mem_of_mem_drop (List.mem_of_mem_take hr), hstops⟩

theorem state_of_map {st₀ : IniState} {called : Proc (σ × ℕ)}
    (h : (called.map fun (user, error) => (st₀, user, error)) = .ok (st', user', error)) :
    st' = st₀ := by
  cases called with
  | error e => cases h
  | ok out => exact (Prod.mk.inj (Except.ok.inj h)).1.symm

theorem act_next {kind : LineKind} (hlineno : lineno ≠ 0)
    (h : act handler st user lineno kind = .ok (st', user', 0)) : st' = next_state st kind := by
  cases kind with
  | skip =>
    cases h
    rfl
  | header sect =>
    cases h
    rfl
  | malformed =>
    obtain ⟨-, hmk⟩ := Prod.mk.inj (Except.ok.inj h)
    exact absurd (Prod.mk.inj hmk).2 hlineno
  | more value => exact state_of_map h
  | pair name value => exact state_of_map h

theorem kind_of_later (h : lineno ≠ 1) (prev_name text : Bytes) :
    kind_of lineno prev_name text = line_kind (0 < leading text) prev_name (trimmed text) := by
  have hmark : marked lineno text = 0 := if_neg fun hfirst => h hfirst.1
  simp only [kind_of, hmark, List.drop_zero, Nat.zero_add]

theorem malformed_stops {r : Reading σ} (h : r.kind = .malformed) (hlineno : r.lineno ≠ 0) :
    r.Stops handler := by
  intro st₁ user₁ hout
  rw [Reading.outcome, h] at hout
  exact hlineno (Prod.mk.inj (Prod.mk.inj (Except.ok.inj hout)).2).2

section Later

variable {piece : Bytes} {rest : List Bytes}

theorem next_reading_mem (handler : Loader σ) (st : IniState) (user : σ) (lineno : ℕ)
    (piece : Bytes) (rest : List Bytes) :
    next_reading st user lineno piece ∈ readings handler st user lineno (piece :: rest) := by
  rw [readings]
  exact List.mem_cons_self

/-- Behind the first line there is no byte order mark. -/
theorem next_reading_kind (st : IniState) (user : σ) (piece : Bytes) (hlineno : 1 ≤ lineno) :
    (next_reading st user lineno piece).kind =
      line_kind (0 < leading (c_string piece)) st.prev_name (trimmed (c_string piece)) := by
  apply kind_of_later
  exact Nat.ne_of_gt (Nat.lt_succ_of_le hlineno)

theorem next_reading_stops (hlineno : 1 ≤ lineno)
    (h : line_kind (0 < leading (c_string piece)) st.prev_name (trimmed (c_string piece)) =
      .malformed) : (next_reading st user lineno piece).Stops handler := by
  apply malformed_stops
  · rw [next_reading_kind st user piece hlineno, h]
  · exact Nat.succ_ne_zero lineno

theorem next_reading_blank (handler : Loader σ) (hlineno : 1 ≤ lineno)
    (h : trimmed (c_string piece) = []) :
    (next_reading st user lineno piece).outcome handler = .ok (st, user, 0) ∧
      (next_reading st user lineno piece).call = none := by
  have hkind : (next_reading st user lineno piece).kind = .skip := by
    rw [next_reading_kind st user piece hlineno, h]
    rfl
  constructor
  · rw [Reading.outcome, hkind]
    rfl
  · rw [Reading.call, hkind]
    rfl

end Later

/-- The pieces behind the first one are passed over if and only if they are absorbed. -/
theorem readings_absorbed_iff (hlineno : 1 ≤ lineno) (pieces : List Bytes) (user : σ) :
    (∀ r ∈ readings handler st user lineno pieces, r.kind = .malformed ∨ trimmed r.text = []) ↔
      Absorbed st.prev_name pieces := by
  induction pieces generalizing user lineno with
  | nil => exact iff_of_true (fun r hr => (nomatch hr)) trivial
  | cons piece rest ih =>
    have hkind := next_reading_kind st user piece hlineno
    rw [Absorbed, ← hkind]
    by_cases hbad : (next_reading st user lineno piece).kind = .malformed
    · rw [readings_stop (next_reading_stops hlineno (hkind.symm.trans hbad))]
      refine iff_of_true (fun s hs => ?_) (Or.inl hbad)
      rw [List.mem_singleton.mp hs]
      exact Or.inl hbad
    by_cases hblank : trimmed (c_string piece) = []
    · obtain ⟨hgo, -⟩ := @next_reading_blank _ st user lineno piece handler hlineno hblank
      have htext : trimmed (next_reading st user lineno piece).text = [] := hblank
      rw [readings_next hgo, List.forall_mem_cons, ih (Nat.le_succ_of_le hlineno) user]
      simp [hbad, hblank, htext]
    · refine iff_of_false (fun h => ?_) (by simp [hbad, hblank])
      exact (h _ (next_reading_mem handler st user lineno piece rest)).elim hbad hblank

theorem readings_blank (hlineno : 1 ≤ lineno) {pieces : List Bytes} {user : σ}
    (habsorbed : Absorbed st.prev_name pieces)
    (hgoes : ∀ r ∈ readings handler st user lineno pieces, ¬r.Stops handler) :
    (∀ piece ∈ pieces, trimmed (c_string piece) = []) ∧
      (readings handler st user lineno pieces).filterMap Reading.call = [] := by
  induction pieces generalizing user lineno with
  | nil => exact ⟨fun piece hpiece => (nomatch hpiece), rfl⟩
  | cons piece rest ih =>
    rcases habsorbed with hbad | ⟨hblank, hrest⟩
    · have hmem := next_reading_mem handler st user lineno piece rest
      exact absurd (next_reading_stops hlineno hbad) (hgoes _ hmem)
    · obtain ⟨hgo, hcall⟩ := @next_reading_blank _ st user lineno piece handler hlineno hblank
      rw [readings_next hgo] at hgoes ⊢
      obtain ⟨hall, hcalls⟩ := ih (Nat.le_succ_of_le hlineno) hrest
        fun s hs => hgoes s (List.mem_cons_of_mem _ hs)
      refine ⟨List.forall_mem_cons.mpr ⟨hblank, hall⟩, ?_⟩
      rw [List.filterMap_cons_none hcall]
      exact hcalls

/-! ## Blanks behind a line -/

theorem blank_of_trimmed {text : Bytes} (h : trimmed text = []) : Blank text := by
  have hblank : Blank (stripped text) := List.dropWhile_eq_nil_iff.mp h
  have hnil : stripped text = [] := by
    by_contra hne
    exact List.rdropWhile_last_not isspace text hne (hblank _ (List.getLast_mem hne))
  exact List.rdropWhile_eq_nil_iff.mp hnil

theorem c_string_append (x y : Bytes) :
    c_string (x ++ y) = if 0 ∈ x then c_string x else x ++ c_string y := by
  induction x with
  | nil => rfl
  | cons c x ih =>
    by_cases hc : c = 0
    · subst hc
      rw [if_pos List.mem_cons_self]
      rfl
    · have hcons : ∀ s, c_string (c :: s) = c :: c_string s := fun s => by
        simp [c_string, hc]
      rw [List.cons_append, hcons, hcons, ih]
      by_cases hx : 0 ∈ x
      · rw [if_pos hx, if_pos (List.mem_cons_of_mem c hx)]
      · rw [if_neg hx, if_neg (by simp [hx, Ne.symm hc])]
        rfl

theorem c_string_blanks (piece : Bytes) {pieces : List Bytes}
    (h : ∀ p ∈ pieces, trimmed (c_string p) = []) :
    ∃ blanks, Blank blanks ∧ c_string (piece ++ pieces.flatten) = c_string piece ++ blanks := by
  have hblank : Blank (c_string pieces.flatten) := by
    induction pieces with
    | nil => exact fun c hc => (nomatch hc)
    | cons p pieces ih =>
      have hp := blank_of_trimmed (h p List.mem_cons_self)
      rw [List.flatten_cons, c_string_append]
      split
      · exact hp
      · next hclean =>
        rw [c_string_of_clean hclean] at hp
        intro c hc
        rcases List.mem_append.mp hc with hc | hc
        · exact hp c hc
        · exact ih (fun q hq => h q (List.mem_cons_of_mem p hq)) c hc
  by_cases h0 : 0 ∈ piece
  · refine ⟨[], fun c hc => (nomatch hc), ?_⟩
    rw [c_string_append, if_pos h0, List.append_nil]
  · exact ⟨c_string pieces.flatten, hblank,
      by rw [c_string_append, if_neg h0, c_string_of_clean h0]⟩

theorem marked_blanks (lineno : ℕ) (text : Bytes) {blanks : Bytes} (h : Blank blanks) :
    marked lineno (text ++ blanks) = marked lineno text := by
  have hsolid : ∀ c ∈ ([0xEF, 0xBB, 0xBF] : Bytes), isspace c = false := by decide +kernel
  have hmark : [0xEF, 0xBB, 0xBF] <+: text ++ blanks ↔ [0xEF, 0xBB, 0xBF] <+: text := by
    refine ⟨fun hbegins => ?_, fun hbegins => hbegins.trans (List.prefix_append text blanks)⟩
    rcases List.prefix_or_prefix_of_prefix hbegins (List.prefix_append text blanks) with
      hin | ⟨more, hmore⟩
    · exact hin
    · rw [← hmore, List.prefix_append_right_inj] at hbegins
      cases more with
      | nil => simp only [← hmore, List.append_nil, List.prefix_refl]
      | cons c more =>
        have hsol := hsolid c (hmore ▸ List.mem_append_right text List.mem_cons_self)
        have hspace := h c (hbegins.subset List.mem_cons_self)
        rw [hsol] at hspace
        cases hspace
  rw [marked, marked]
  simp only [hmark]

theorem kind_of_blanks (lineno : ℕ) (prev_name text : Bytes) {blanks : Bytes} (h : Blank blanks) :
    kind_of lineno prev_name (text ++ blanks) = kind_of lineno prev_name text := by
  have hle : marked lineno text ≤ text.length := by
    rw [marked]
    split
    · next hm => exact hm.2.length_le
    · exact Nat.zero_le _
  simp only [kind_of, marked_blanks lineno text h, List.drop_append_of_le_length hle, leading,
    trimmed, stripped_append_blank _ h]
  rfl

theorem whole_nil (handler : Loader σ) (line : Bytes) : Whole handler line [] :=
  ⟨Or.inr ⟨Nat.zero_le 1, fun _ h => (nomatch h)⟩, fun _ hr => (nomatch hr)⟩

/-- Blank pieces leave the first one as it is: the line says what it says. -/
theorem line_call_blanks {r : Reading σ} {piece : Bytes} {rest : List Bytes}
    (hr : r = next_reading st user lineno piece)
    (hblank : ∀ p ∈ rest, trimmed (c_string p) = []) :
    line_call r (piece ++ rest.flatten) = r.call := by
  obtain ⟨blanks, hblanks, hwhole⟩ := c_string_blanks piece hblank
  rw [line_call, hwhole, kind_of_blanks _ _ _ hblanks, hr]
  rfl

theorem whole_of_absorbed {r : Reading σ} {piece : Bytes} {rest : List Bytes}
    (hr : r = next_reading st user lineno piece) (habsorbed : Absorbed st'.prev_name rest) :
    Whole handler (piece ++ rest.flatten)
      (r :: readings handler st' user' (lineno + 1) rest) := by
  have hlineno : 1 ≤ lineno + 1 := Nat.le_add_left 1 lineno
  refine ⟨?_, (readings_absorbed_iff hlineno rest user').mpr habsorbed⟩
  by_cases hsome : ∃ s ∈ readings handler st' user' (lineno + 1) rest, s.Stops handler
  · obtain ⟨s, hs, hstops⟩ := hsome
    exact Or.inl ⟨s, List.mem_cons_of_mem r hs, hstops⟩
  · obtain ⟨hblank, hcalls⟩ := readings_blank hlineno habsorbed
      fun s hs hstops => hsome ⟨s, hs, hstops⟩
    have hcall : (r :: readings handler st' user' (lineno + 1) rest).filterMap Reading.call =
        r.call.toList := by
      rw [List.filterMap_cons, hcalls]
      cases r.call <;> rfl
    rw [hcall]
    refine Or.inr ⟨by cases r.call <;> simp, fun first hfirst s hs => ?_⟩
    obtain rfl := Option.some.inj hfirst
    rw [line_call_blanks hr hblank]
    exact Option.mem_toList.mp hs

theorem readings_whole_iff (st : IniState) (user : σ) (lineno : ℕ) (line : Bytes) :
    Whole handler line (readings handler st user lineno (fgets_lines line)) ↔
      ∀ first, (readings handler st user lineno (fgets_lines line)).head? = some first →
        first.Stops handler ∨
          Absorbed (next_state first.st first.kind).prev_name (fgets_lines line).tail := by
  have hflatten : (fgets_lines line).flatten = line := lines_flatten line
  cases hpieces : fgets_lines line with
  | nil => exact iff_of_true (whole_nil handler line) fun first h => (nomatch h)
  | cons piece rest =>
    obtain ⟨r, hr⟩ : ∃ r, r = next_reading st user lineno piece := ⟨_, rfl⟩
    rw [hpieces, List.flatten_cons] at hflatten
    rcases reading_cases r handler with ⟨st', user', hout⟩ | hstops
    · have hgo := hr ▸ hout
      have hnext : st' = next_state r.st r.kind := by
        refine act_next ?_ hout
        rw [hr]
        exact Nat.succ_ne_zero lineno
      have hgoes : ¬r.Stops handler := fun hstops => hstops st' user' hout
      rw [readings_next hgo, ← hr]
      constructor
      · intro h first hfirst
        obtain rfl := Option.some.inj hfirst
        rw [← hnext]
        exact Or.inr ((readings_absorbed_iff (Nat.le_add_left 1 lineno) rest user').mp h.alone)
      · intro h
        have htail : Absorbed st'.prev_name rest := by
          rw [hnext]
          exact (h r rfl).resolve_left hgoes
        rw [← hflatten]
        exact whole_of_absorbed hr htail
    · rw [readings_stop (hr ▸ hstops), ← hr]
      refine iff_of_true ⟨Or.inl ⟨r, List.mem_cons_self, hstops⟩, fun s hs => ?_⟩
        fun first hfirst => ?_
      · cases hs
      · obtain rfl := Option.some.inj hfirst
        exact Or.inl hstops

/-- A line is taken as a whole if and only if it is not reached, or the parser stops at its first
piece, or what stands behind that piece is absorbed. What is read of the line is what the parser
of the file hands on for it. -/
theorem line_whole_iff (handler : Loader σ) (user : σ) (front line behind : Bytes)
    (hfront : Closed newline front) (hline : IsLine line behind) :
    (Whole handler line (line_readings handler user front line behind) ↔
      ∀ first, (line_readings handler user front line behind).head? = some first →
        first.Stops handler ∨
          Absorbed (next_state first.st first.kind).prev_name (fgets_lines line).tail) ∧
    ∀ user' calls error, ini_parse_file (traced handler) (user, []) (front ++ (line ++ behind)) =
        .ok ((user', calls), error) →
      (∃ after, calls = (file_readings handler user front).filterMap Reading.call ++
        ((line_readings handler user front line behind).filterMap Reading.call ++ after)) ∧
      ((∃ r ∈ line_readings handler user front line behind, r.Stops handler) → error ≠ 0) := by
  constructor
  · rcases line_readings_cases hfront hline user with hnil | ⟨st, user', lineno, hreadings⟩
    · rw [hnil]
      exact iff_of_true (whole_nil handler line) fun first h => (nomatch h)
    · rw [hreadings]
      exact readings_whole_iff st user' lineno line
  · intro user' calls error h
    exact line_calls hfront h

end Reading

def take_all : Loader Unit := fun user _ _ _ _ => .ok (user, 1)

/-- A setting that is followed by more blanks than the buffer has room for. -/
def padded : Bytes := bytes "a=1" ++ (List.replicate 300 32 ++ [newline])

/-- The blanks behind the first piece are absorbed, and the file makes one call. -/
theorem line_whole_iff_padded :
    Whole take_all padded (line_readings take_all () [] padded []) ∧
    ∃ after, [⟨[], bytes "a", bytes "1", 1⟩] =
      (file_readings take_all () []).filterMap Reading.call ++
        ((line_readings take_all () [] padded []).filterMap Reading.call ++ after) := by
  have hisline : IsLine padded [] := by
    refine ⟨bytes "a=1" ++ List.replicate 300 32, ?_, Or.inl (List.append_assoc _ _ _).symm⟩
    rw [List.mem_append]
    exact fun h => h.elim (by decide) fun h => absurd (List.eq_of_mem_replicate h) (by decide)
  have hpieces : (fgets_lines padded).tail = [List.replicate 104 32 ++ [newline]] := by
    decide +kernel
  have hblank : trimmed (c_string (List.replicate 104 32 ++ [newline])) = [] := by decide +kernel
  have hparse : ini_parse_file (traced take_all) ((), []) ([] ++ (padded ++ [])) =
      .ok (((), [⟨[], bytes "a", bytes "1", 1⟩]), 0) := by decide +kernel
  obtain ⟨hwhole, hcalls⟩ := line_whole_iff take_all () [] padded [] (Or.inl rfl) hisline
  refine ⟨hwhole.mpr fun first _ => Or.inr ?_, (hcalls () _ 0 hparse).1⟩
  rw [hpieces]
  exact Or.inr ⟨hblank, trivial⟩

def filling_comment : Bytes := 35 :: List.replicate 198 65

theorem filling_comment_byte {c : UInt8} (h : c ∈ filling_comment) : c = 35 ∨ c = 65 :=
  (List.mem_cons.mp h).imp id fun hc => (List.mem_replicate.mp hc).2

theorem filling_comment_free : newline ∉ filling_comment := fun h => by
  rcases filling_comment_byte h with h | h <;> cases h

theorem filling_comment_pieces :
    fgets_lines (filling_comment ++ bytes "b=1\n") = [filling_comment, bytes "b=1\n"] := by
  have hlength : filling_comment.length = 199 := by
    rw [filling_comment, List.length_cons, List.length_replicate]
  have hfull := take_line_full filling_comment_free (bytes "b=1\n")
  have hrest : lines 10 199 (bytes "b=1\n") = [bytes "b=1\n"] := by decide
  have hne : filling_comment ++ bytes "b=1\n" ≠ [] := List.cons_ne_nil _ _
  rw [hlength] at hfull
  rw [fgets_lines, INI_MAX_LINE, lines_eq (by decide) hne]
  exact congrArg₂ List.cons (congrArg Prod.fst hfull)
    ((congrArg (lines 10 199) (congrArg Prod.snd hfull)).trans hrest)

theorem filling_comment_skipped :
    (next_reading ⟨[], []⟩ () 0 filling_comment).kind = .skip := by
  have hblankless : ∀ c ∈ filling_comment, isspace c = false := fun c hc => by
    rcases filling_comment_byte hc with rfl | rfl <;> rfl
  have hclean : 0 ∉ filling_comment := fun h0 => by
    rcases filling_comment_byte h0 with h0 | h0 <;> cases h0
  have hmark : marked 1 filling_comment = 0 := if_neg fun hfirst => by
    obtain ⟨rest, hrest⟩ := hfirst.2
    exact absurd (List.cons.inj hrest).1 (by decide)
  simp only [next_reading, Reading.kind, c_string_of_clean hclean, kind_of, hmark,
    List.drop_zero, trimmed_of_blankless hblankless]
  rfl

/-- What stands behind it on its line is taken for a setting. -/
theorem comment_sets :
    ¬∀ (handler : Loader Unit) (front line behind : Bytes), Closed newline front →
      IsLine line behind → Whole handler line (line_readings handler () front line behind) := by
  intro h
  obtain ⟨line, hline⟩ : ∃ line, line = filling_comment ++ bytes "b=1\n" := ⟨_, rfl⟩
  have hpieces : fgets_lines line = [filling_comment, bytes "b=1\n"] :=
    hline ▸ filling_comment_pieces
  have hfree : newline ∉ filling_comment ++ bytes "b=1" := by
    rw [List.mem_append]
    exact fun h10 => h10.elim filling_comment_free (by decide)
  have hisline : IsLine line [] := by
    refine ⟨filling_comment ++ bytes "b=1", hfree, Or.inl ?_⟩
    rw [hline, List.append_assoc]
    rfl
  have hread : line_readings take_all () [] line [] =
      readings take_all ⟨[], []⟩ () 0 (fgets_lines line) := by
    have htake := @take_readings _ take_all (fgets_lines line) [] ⟨[], []⟩ () 0
    rw [List.append_nil] at htake
    rw [line_readings, file_readings, List.nil_append, List.append_nil]
    exact htake
  have hwhole := h take_all [] line [] (Or.inl rfl) hisline
  rw [hread, readings_whole_iff, hpieces] at hwhole
  rcases hwhole _ rfl with hstops | habsorbed
  · apply hstops ⟨[], []⟩ ()
    rw [Reading.outcome, filling_comment_skipped]
    rfl
  · rw [filling_comment_skipped] at habsorbed
    rcases habsorbed with hbad | ⟨hblank, -⟩
    · exact absurd hbad (by decide)
    · exact absurd hblank (by decide)

end SplitLines
