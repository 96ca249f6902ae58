import Ayahesa.ViewStatements
import Ayahesa.ViewTemplates

/-! # When the template passes stay inside their buffer

The buffer is not terminated, so a token that is never closed sends the search for its bracket
over the end, and marks in the wrong order give negative lengths. For each function the exact
condition on the buffer is stated next to what it is equivalent to. -/
namespace ViewMemorySafety

open CMemory CompatStrings ByteSearch KoreApi KoreBuffer LoopIteration ViewPasses
open ViewDirectives ViewStatements ViewTemplates

/-- No access left its region. -/
def Runs {α : Type} (x : C α) : Prop := ∃ a, x = .ok a

variable {K : Kore} {S : Symbols} {b : KoreBuf} {token : Bytes}

theorem runs_ok {α : Type} (a : α) : Runs (.ok a : C α) := ⟨a, rfl⟩

theorem not_runs_error {α : Type} (e : Fault) : ¬ Runs (.error e : C α) := by
  rintro ⟨a, h⟩
  cases h

theorem cstr_runs_iff (d : Bytes) (i : ℕ) : Runs (cstr d i) ↔ 0 ∈ d.drop i := by
  constructor
  · rintro ⟨t, h⟩
    obtain ⟨right, hd, _⟩ := cstr_ok h
    rw [hd]
    simp
  · intro h
    rcases scan_cases (fun x => decide (x = 0)) (d.drop i) with ⟨left, z, right, hs, hl, hz⟩ | hn
    · refine ⟨(d.drop i).take left.length, ?_⟩
      simp only [cstr, strlen]
      rw [hs, scan_hit right hl hz]
      rfl
    · exact absurd (hn 0 h) (by decide)

/-! ## The search for a directive -/

/-- The leftmost token, if there is one, meets a bracket or a NUL in the buffer. -/
def Closable (token d : Bytes) : Prop :=
  ∀ X rest, d = X ++ (token ++ rest) → Free token X → TOk_CLOSE ∈ rest ∨ 0 ∈ rest

structure ParserInside (K : Kore) (b : KoreBuf) (token : Bytes) : Prop where
  runs : Runs (parser K b token)
  lengths : ∀ m, parser K b token = .ok (some m) → 0 ≤ m.argumentsz ∧ 0 ≤ m.posx_length ∧
    m.argument + m.argumentsz < b.offset ∧ m.posx_start + m.posx_length < b.offset

theorem parser_lengths {m : Match} (ht : IsToken token) (h : parser K b token = .ok (some m)) :
    0 ≤ m.argumentsz ∧ 0 ≤ m.posx_length ∧ m.argument + m.argumentsz < b.offset ∧
      m.posx_start + m.posx_length < b.offset := by
  obtain ⟨X, arg, Y, hs, _, _, rfl⟩ := parser_ok_some ht h
  simp only [matchAt, KoreBuf.offset, hs, List.length_append, List.length_cons]
  omega

theorem parser_inside_iff (K : Kore) (b : KoreBuf) (ht : IsToken token) :
    ParserInside K b token ↔ Closable token b.data := by
  constructor
  · rintro ⟨hr, _⟩ X rest hs hX
    rcases follows rest with ⟨rfl, _⟩ | ⟨rfl, _⟩ | ha
    · exact Or.inl (by simp)
    · exact Or.inr (by simp)
    · rw [parser_open K ht ha hX hs] at hr
      exact absurd hr (not_runs_error _)
  · intro hc
    refine ⟨?_, fun m => parser_lengths ht⟩
    rcases token_cases ht b.data with hfree | ⟨X, rest, hs, hX⟩
    · rw [parser_free K ht hfree]
      exact runs_ok _
    · rcases follows rest with @⟨arg, Y, rfl, ha⟩ | @⟨arg, Y, rfl, ha⟩ | ha
      · rw [parser_closed K ht ha hX hs]
        exact runs_ok _
      · rw [parser_cut K ht ha hX hs]
        exact runs_ok _
      · rcases hc X rest hs hX with h | h
        · exact absurd h ha.open_
        · exact absurd h ha.clean

/-! ## The splices -/

theorem replace_string_runs_iff (b : KoreBuf) (p : ℕ) (l : ℤ) (dst : Bytes) :
    Runs (aya_buf_replace_string b p l dst) ↔ 0 ≤ l ∧ p + l ≤ b.offset := by
  constructor
  · rintro ⟨b', h⟩
    obtain ⟨hl, hp, _⟩ := replace_string_ok h
    exact ⟨hl, hp⟩
  · rintro ⟨hl, hp⟩
    simp only [KoreBuf.offset] at hp
    have hsplit : b.data = b.data.take p ++
        ((b.data.drop p).take l.toNat ++ (b.data.drop p).drop l.toNat) := by
      rw [List.take_append_drop, List.take_append_drop]
    exact ⟨_, replace_string_at dst hsplit (by rw [List.length_take]; omega)
      (by simp only [List.length_take, List.length_drop]; omega)⟩

theorem replace_first_string_runs (K : Kore) (b : KoreBuf) {src : Bytes} (dst : Bytes)
    (hne : src ≠ []) : Runs (aya_buf_replace_first_string K b src dst) := by
  rcases replace_first_string_cases K b dst hne with ⟨_, h⟩ | ⟨_, _, _, _, h⟩
  · rw [h]
    exact runs_ok _
  · rw [h]
    exact runs_ok _

/-! ## The template pass -/

/-- The body of a template that exists starts in front of the end mark or in front of a NUL. -/
structure TemplateOrdered (S : Symbols) (d : Bytes) : Prop where
  closable : Closable TOk_TEMPLATE d
  body : ∀ X arg Y stop, d = X ++ (TOk_TEMPLATE ++ (arg ++ TOk_CLOSE :: Y)) → Free TOk_TEMPLATE X →
    Plain arg → arg ≠ [] → (include_asset S (trimmed arg)).isSome →
    find TOk_ENDTEMPLATE (templateClosed X arg Y) = some stop →
    bodyStart X arg ≤ stop ∨ 0 ∈ (templateClosed X arg Y).drop (bodyStart X arg)

/-- Reading a text that the NUL at `stop` ends, or a NUL that was there before. -/
theorem cut_runs_iff {d : Bytes} {stop i : ℕ} (hs : stop < d.length) :
    Runs (cstr (d.set stop 0) i) ↔ i ≤ stop ∨ 0 ∈ d.drop i := by
  rw [cstr_runs_iff]
  constructor
  · intro h
    by_cases hi : i ≤ stop
    · exact Or.inl hi
    · rw [List.drop_set_of_lt (by omega)] at h
      exact Or.inr h
  · rintro (hi | h)
    · have hget : ((d.set stop 0).drop i)[stop - i]? = some 0 := by
        rw [List.getElem?_drop, show i + (stop - i) = stop by omega, List.getElem?_set_self hs]
      exact List.mem_of_getElem? hget
    · obtain ⟨k, hk⟩ := List.getElem?_of_mem h
      rw [List.getElem?_drop] at hk
      have hget : ((d.set stop 0).drop i)[k]? = some 0 := by
        rw [List.getElem?_drop]
        by_cases hks : stop = i + k
        · rw [hks, List.getElem?_set_self (hks ▸ hs)]
        · rw [List.getElem?_set_ne hks, hk]
      exact List.mem_of_getElem? hget

theorem template_body_runs_iff (K : Kore) (b : KoreBuf) (i : ℕ) :
    Runs (template_body K b i) ↔
      ∀ stop, find TOk_ENDTEMPLATE b.data = some stop → i ≤ stop ∨ 0 ∈ b.data.drop i := by
  rw [template_body_eq]
  cases hf : find TOk_ENDTEMPLATE b.data with
  | none => exact ⟨fun _ _ h => (Option.some_ne_none _ h.symm).elim, fun _ => runs_ok _⟩
  | some stop =>
    have hlt : stop < b.data.length := by
      have := find_bound TOk_ENDTEMPLATE_token.head.ne_nil hf
      have := TOk_ENDTEMPLATE_token.head.length_pos
      omega
    have hcut := cut_runs_iff (i := i) hlt
    constructor
    · rintro ⟨r, hr⟩ q hq
      obtain rfl := Option.some.inj hq
      obtain ⟨body, hbody, _⟩ := bind_ok hr
      exact hcut.mp ⟨body, hbody⟩
    · intro h
      obtain ⟨body, hbody⟩ := hcut.mpr (h stop rfl)
      simp only [hbody]
      exact runs_ok _

theorem yield_mark_ne_nil : yield_mark ≠ [] := by decide

theorem process_template_runs_iff (K : Kore) (S : Symbols) (b : KoreBuf) :
    Runs (process_template K S b) ↔ TemplateOrdered S b.data := by
  constructor
  · rintro ⟨r, hr⟩
    refine ⟨(parser_inside_iff K b TOk_TEMPLATE_token).mp ⟨?_, fun m =>
      parser_lengths TOk_TEMPLATE_token⟩, ?_⟩
    · obtain ⟨m, hm, _⟩ := bind_ok hr
      exact ⟨m, hm⟩
    · intro X arg Y stop hs hX ha hne hasset hstop
      obtain ⟨asset, hasset⟩ := Option.isSome_iff_exists.mp hasset
      rw [process_template_at K ha hne hX hs, hasset] at hr
      obtain ⟨body, hbody, _⟩ := bind_ok hr
      exact (template_body_runs_iff K _ _).mp ⟨body, hbody⟩ stop hstop
  · rintro ⟨hc, hbody⟩
    rcases token_cases TOk_TEMPLATE_token b.data with hfree | ⟨X, rest, hs, hX⟩
    · rw [process_template_free K hfree]
      exact runs_ok _
    · rcases follows rest with @⟨arg, Y, rfl, ha⟩ | ⟨rfl, ha⟩ | ha
      · by_cases hne : arg = []
        · subst hne
          rw [process_template_empty K hX hs]
          exact runs_ok _
        · rw [process_template_at K ha hne hX hs]
          cases hasset : include_asset S (trimmed arg) with
          | none => exact runs_ok _
          | some asset =>
            obtain ⟨⟨buffer, body⟩, hrun⟩ := (template_body_runs_iff K
              ⟨templateClosed X arg Y, b.length⟩ (bodyStart X arg)).mpr fun stop hstop =>
                hbody X arg Y stop hs hX ha hne (by rw [hasset]; rfl) hstop
            simp only [hrun, bind, Except.bind]
            cases body with
            | none => exact runs_ok _
            | some body => exact replace_first_string_runs K _ body yield_mark_ne_nil
      · rw [process_template_cut K ha hX hs]
        exact runs_ok _
      · rcases hc X rest hs hX with h | h
        · exact absurd h ha.open_
        · exact absurd h ha.clean

/-! ## The comment pass -/

structure CommentInside (K : Kore) (b : KoreBuf) : Prop where
  runs : Runs (process_comment_body K b)
  ordered : ∀ start stop, comment_marks K b = .ok (some (start, stop)) →
    0 ≤ (stop : ℤ) - start

/-- The first opening mark does not stand behind the first closing mark. -/
def CommentOrdered (d : Bytes) : Prop :=
  ∀ start stop, find TOk_COMMENT_OPEN d = some start → find TOk_COMMENT_CLOSE d = some stop →
    start ≤ stop

theorem comment_marks_eq (K : Kore) (b : KoreBuf) :
    comment_marks K b = .ok ((find TOk_COMMENT_OPEN b.data).bind fun p =>
      (find TOk_COMMENT_CLOSE b.data).map fun q => (p, q)) :=
  find_marks_eq K b TOk_COMMENT_OPEN_token.head.ne_nil TOk_COMMENT_CLOSE_token.head.ne_nil

theorem comment_done (h : Free TOk_COMMENT_OPEN b.data ∨ Free TOk_COMMENT_CLOSE b.data) :
    process_comment_body K b = .ok (.done b) := by
  have hmarks := comment_marks_eq K b
  have hnone : ((find TOk_COMMENT_OPEN b.data).bind fun p =>
      (find TOk_COMMENT_CLOSE b.data).map fun q => (p, q)) = none := by
    rcases h with h | h
    · rw [(find_eq_none_iff TOk_COMMENT_OPEN_token.head.ne_nil).mpr h]
      rfl
    · rw [(find_eq_none_iff TOk_COMMENT_CLOSE_token.head.ne_nil).mpr h]
      cases find TOk_COMMENT_OPEN b.data with
      | none => rfl
      | some p => rfl
  rw [hnone] at hmarks
  simp only [process_comment_body, hmarks, bind, Except.bind, pure, Except.pure]

theorem comment_round {p q : ℕ} (hp : find TOk_COMMENT_OPEN b.data = some p)
    (hq : find TOk_COMMENT_CLOSE b.data = some q) :
    process_comment_body K b = (do
      let buffer ← aya_buf_replace_string b p (((q : ℤ) - p) + TOk_COMMENT_CLOSE.length) []
      return .next buffer) := by
  have hmarks := comment_marks_eq K b
  rw [hp, hq] at hmarks
  simp only [Option.bind_some, Option.map_some] at hmarks
  simp only [process_comment_body, hmarks, bind, Except.bind]
  rfl

/-- A closing mark that ends in front of the first opening mark makes the length negative. -/
theorem comment_negative {p q : ℕ} (hp : find TOk_COMMENT_OPEN b.data = some p)
    (hq : find TOk_COMMENT_CLOSE b.data = some q) (hpq : q + TOk_COMMENT_CLOSE.length < p) :
    process_comment_body K b = .error .outOfBounds := by
  rw [comment_round hp hq, replace_string_negative (by omega)]
  rfl

theorem comment_cut {p q : ℕ} (hp : find TOk_COMMENT_OPEN b.data = some p)
    (hq : find TOk_COMMENT_CLOSE b.data = some q) (hpq : p ≤ q + TOk_COMMENT_CLOSE.length) :
    ∃ n, process_comment_body K b =
      .ok (.next ⟨b.data.take p ++ b.data.drop (q + TOk_COMMENT_CLOSE.length), n⟩) := by
  have hbp := find_bound TOk_COMMENT_OPEN_token.head.ne_nil hp
  have hbq := find_bound TOk_COMMENT_CLOSE_token.head.ne_nil hq
  obtain ⟨k, hk⟩ := Nat.exists_eq_add_of_le hpq
  have hsplit : b.data = b.data.take p ++
      ((b.data.drop p).take k ++ b.data.drop (q + TOk_COMMENT_CLOSE.length)) := by
    rw [hk, ← List.drop_drop, List.take_append_drop, List.take_append_drop]
  have hcut : aya_buf_replace_string b p (((q : ℤ) - p) + TOk_COMMENT_CLOSE.length) [] =
      .ok ⟨b.data.take p ++ ([] ++ b.data.drop (q + TOk_COMMENT_CLOSE.length)), _⟩ :=
    replace_string_at [] hsplit (by rw [List.length_take]; omega)
      (by rw [List.length_take, List.length_drop]; omega)
  refine ⟨b.offset + ([] : Bytes).length, ?_⟩
  rw [comment_round hp hq, hcut]
  rfl

theorem comment_inside_iff (K : Kore) (b : KoreBuf) :
    CommentInside K b ↔ CommentOrdered b.data := by
  have hmarks := comment_marks_eq K b
  constructor
  · rintro ⟨_, hord⟩ start stop hstart hstop
    rw [hstart, hstop] at hmarks
    have := hord start stop hmarks
    omega
  · intro hord
    cases hstart : find TOk_COMMENT_OPEN b.data with
    | none =>
      rw [hstart] at hmarks
      refine ⟨?_, fun start stop h => by rw [hmarks] at h; cases h⟩
      rw [comment_done (Or.inl ((find_eq_none_iff TOk_COMMENT_OPEN_token.head.ne_nil).mp hstart))]
      exact runs_ok _
    | some start =>
      cases hstop : find TOk_COMMENT_CLOSE b.data with
      | none =>
        rw [hstart, hstop] at hmarks
        refine ⟨?_, fun start stop h => by rw [hmarks] at h; cases h⟩
        rw [comment_done (Or.inr ((find_eq_none_iff TOk_COMMENT_CLOSE_token.head.ne_nil).mp hstop))]
        exact runs_ok _
      | some stop =>
        have hle := hord start stop hstart hstop
        rw [hstart, hstop] at hmarks
        obtain ⟨n, hn⟩ := comment_cut (K := K) hstart hstop (by omega)
        refine ⟨?_, ?_⟩
        · rw [hn]
          exact runs_ok _
        · intro p q h
          rw [hmarks] at h
          obtain ⟨rfl, rfl⟩ := Prod.mk.inj (Option.some.inj (Except.ok.inj h))
          omega

/-! ## The statement pass -/

structure StatementInside (K : Kore) (S : Symbols) (b : KoreBuf) : Prop where
  /-- A negative length of the ELSE part makes the splice leave its region. -/
  runs : Runs (process_statement_body K S b)
  lengths : ∀ s, find_statement K b = .ok (.inr s) → 0 ≤ s.pos_length ∧
    0 ≤ (s.stop : ℤ) - s.pos_start ∧ ∀ m, s.middle = some m → 0 ≤ (m : ℤ) - s.pos_start

/-- Both windows end inside the buffer or hold what is searched for, and after the first splice
the first ELSE mark does not stand behind the first ENDIF mark. -/
structure RoundOrdered (S : Symbols) (X arg Y : Bytes) : Prop where
  end_window : endAt X arg Y = none → endWindow X Y ≤ (after arg Y).length
  else_window : ∀ e, endAt X arg Y = some e → elseAt arg Y e = none →
    elseWindow arg e ≤ (after arg Y).length
  marks : ∀ e m p q, endAt X arg Y = some e → elseAt arg Y e = some m →
    0 ≤ get_vvar S (trimmed arg) →
    find TOk_ELSE (headCut (get_vvar S (trimmed arg)) X arg Y m) = some p →
    find TOk_ENDIF (headCut (get_vvar S (trimmed arg)) X arg Y m) = some q → p ≤ q

structure StatementOrdered (S : Symbols) (d : Bytes) : Prop where
  closable : Closable TOk_IF d
  round : ∀ X arg Y, d = X ++ (TOk_IF ++ (arg ++ TOk_CLOSE :: Y)) → Free TOk_IF X → Plain arg →
    arg ≠ [] → RoundOrdered S X arg Y

theorem find_statement_lengths {s : Statement KoreBuf} (h : find_statement K b = .ok (.inr s)) :
    0 ≤ s.pos_length ∧ 0 ≤ (s.stop : ℤ) - s.pos_start ∧
      ∀ m, s.middle = some m → 0 ≤ (m : ℤ) - s.pos_start := by
  obtain ⟨m, hm, h⟩ := bind_ok h
  cases m with
  | none => cases h
  | some m =>
    obtain ⟨X, arg, Y, hs, hX, ha, rfl⟩ := parser_ok_some TOk_IF_token hm
    by_cases hne : arg = []
    · subst hne
      simp [matchAt, pure, Except.pure] at h
    · have heq := find_statement_at K ha hne hX hs
      rw [find_statement, hm] at heq
      simp only [bind, Except.bind] at heq h
      rw [heq] at h
      cases he : endAt X arg Y with
      | none =>
        simp only [he] at h
        split at h <;> cases h
      | some e =>
        simp only [he] at h
        cases hmid : elseAt arg Y e with
        | some k =>
          simp only [hmid] at h
          obtain rfl := Sum.inr.inj (Except.ok.inj h)
          refine ⟨by dsimp only; omega, by simp only [namePos]; omega, ?_⟩
          intro m hm'
          obtain rfl := Option.some.inj hm'
          simp only [namePos]
          omega
        | none =>
          simp only [hmid] at h
          split at h
          · obtain rfl := Sum.inr.inj (Except.ok.inj h)
            refine ⟨by dsimp only; omega, by simp only [namePos]; omega, ?_⟩
            intro m hm'
            cases hm'
          · cases h

section Round

variable {X arg Y : Bytes}

theorem ordered_without_end (he : endAt X arg Y = none) :
    RoundOrdered S X arg Y ↔ endWindow X Y ≤ (after arg Y).length := by
  constructor
  · exact fun ho => ho.end_window he
  · intro hw
    refine ⟨fun _ => hw, ?_, ?_⟩
    · intro e h'
      simp [he] at h'
    · intro e m p q h'
      simp [he] at h'

theorem ordered_without_else {e : ℕ} (he : endAt X arg Y = some e) (hm : elseAt arg Y e = none) :
    RoundOrdered S X arg Y ↔ elseWindow arg e ≤ (after arg Y).length := by
  constructor
  · exact fun ho => ho.else_window e he hm
  · intro hw
    refine ⟨?_, ?_, ?_⟩
    · intro h'
      simp [he] at h'
    · intro e' h' _
      obtain rfl := Option.some.inj (he.symm.trans h')
      exact hw
    · intro e' m p q h' hm'
      obtain rfl := Option.some.inj (he.symm.trans h')
      simp [hm] at hm'

theorem ordered_with_else {e m : ℕ} (he : endAt X arg Y = some e) (hm : elseAt arg Y e = some m) :
    RoundOrdered S X arg Y ↔ (0 ≤ get_vvar S (trimmed arg) → ∀ p q,
      find TOk_ELSE (headCut (get_vvar S (trimmed arg)) X arg Y m) = some p →
      find TOk_ENDIF (headCut (get_vvar S (trimmed arg)) X arg Y m) = some q → p ≤ q) := by
  constructor
  · exact fun ho hv p q => ho.marks e m p q he hm hv
  · intro hmarks
    refine ⟨?_, ?_, ?_⟩
    · intro h'
      simp [he] at h'
    · intro e' h' hm'
      obtain rfl := Option.some.inj (he.symm.trans h')
      simp [hm] at hm'
    · intro e' m' p q h' hm' hv
      obtain rfl := Option.some.inj (he.symm.trans h')
      obtain rfl := Option.some.inj (hm.symm.trans hm')
      exact hmarks hv p q

theorem finish_runs_iff (K : Kore) (N : Bytes) (len i : ℕ) :
    Runs (finish_statement K (⟨N, len⟩ : KoreBuf) (some i)) ↔
      ∀ p q, find TOk_ELSE N = some p → find TOk_ENDIF N = some q → p ≤ q := by
  constructor
  · rintro ⟨st, hst⟩ p q hp hq
    by_contra hlt
    exact finish_disordered i hp hq (by omega) st hst
  · intro hord
    cases hp : find TOk_ELSE N with
    | none =>
      rw [finish_unmarked i (Or.inl hp)]
      exact runs_ok _
    | some p =>
      cases hq : find TOk_ENDIF N with
      | none =>
        rw [finish_unmarked i (Or.inr hq)]
        exact runs_ok _
      | some q =>
        obtain ⟨n, hn⟩ : ∃ n, finish_statement K (⟨N, len⟩ : KoreBuf) (some i) =
            .ok (.next ⟨finished (N.take p ++ N.drop q), n⟩) :=
          finish_some K len i hp hq (hord p q hp hq)
        rw [hn]
        exact runs_ok _

theorem round_runs_iff (K : Kore) (ha : Plain arg) (hne : arg ≠ []) (hX : Free TOk_IF X)
    (h : b.data = X ++ (TOk_IF ++ (arg ++ TOk_CLOSE :: Y))) :
    Runs (process_statement_body K S b) ↔ RoundOrdered S X arg Y := by
  rw [body_at K S ha hne hX h]
  cases he : endAt X arg Y with
  | none =>
    rw [ordered_without_end he]
    by_cases hw : endWindow X Y ≤ (after arg Y).length
    · simp only [hw, if_true, iff_true]
      exact runs_ok _
    · simp only [hw, if_false, iff_false]
      exact not_runs_error _
  | some e =>
    dsimp only
    cases hm : elseAt arg Y e with
    | none =>
      rw [ordered_without_else he hm]
      by_cases hw : elseWindow arg e ≤ (after arg Y).length
      · simp only [hw, if_true, iff_true]
        split
        · exact runs_ok _
        · obtain ⟨n, hn⟩ := finish_none K
            ⟨headCut (get_vvar S (trimmed arg)) X arg Y e, (closedData X arg Y).length⟩
          rw [hn]
          exact runs_ok _
      · simp only [hw, if_false, iff_false]
        exact not_runs_error _
    | some m =>
      rw [ordered_with_else he hm]
      by_cases hv : get_vvar S (trimmed arg) < 0
      · simp only [hv, if_true]
        exact ⟨fun _ h0 => absurd h0 (by omega), fun _ => runs_ok _⟩
      · simp only [hv, if_false]
        rw [finish_runs_iff]
        exact ⟨fun ho _ => ho, fun ho => ho (by omega)⟩

end Round

theorem statement_inside_iff (K : Kore) (S : Symbols) (b : KoreBuf) :
    StatementInside K S b ↔ StatementOrdered S b.data := by
  constructor
  · rintro ⟨hr, _⟩
    refine ⟨(parser_inside_iff K b TOk_IF_token).mp ⟨?_, fun m => parser_lengths TOk_IF_token⟩, ?_⟩
    · obtain ⟨st, hst⟩ := hr
      obtain ⟨found, hfound, _⟩ := bind_ok hst
      obtain ⟨m, hm, _⟩ := bind_ok hfound
      exact ⟨m, hm⟩
    · intro X arg Y hs hX ha hne
      exact (round_runs_iff K ha hne hX hs).mp hr
  · rintro ⟨hc, hround⟩
    refine ⟨?_, fun s => find_statement_lengths⟩
    have early : parser K b TOk_IF = .ok none → Runs (process_statement_body K S b) := by
      intro hp
      simp only [process_statement_body, find_statement, hp, bind, Except.bind, pure, Except.pure]
      exact runs_ok _
    rcases token_cases TOk_IF_token b.data with hfree | ⟨X, rest, hs, hX⟩
    · exact early (parser_free K TOk_IF_token hfree)
    · rcases follows rest with @⟨arg, Y, rfl, ha⟩ | @⟨arg, Y, rfl, ha⟩ | ha
      · by_cases hne : arg = []
        · subst hne
          rw [body_empty K S hX hs]
          exact runs_ok _
        · exact (round_runs_iff K ha hne hX hs).mpr (hround X arg Y hs hX ha hne)
      · exact early (parser_cut K TOk_IF_token ha hX hs)
      · rcases hc X rest hs hX with h | h
        · exact absurd h ha.open_
        · exact absurd h ha.clean

/-- Every function stays inside its buffer and computes no negative length exactly under the
condition next to it; for the two loops, in every state of a run. -/
theorem passes_inside_iff (K : Kore) (S : Symbols) (b : KoreBuf) :
    (∀ token, IsToken token → (ParserInside K b token ↔ Closable token b.data)) ∧
    (∀ p l dst, Runs (aya_buf_replace_string b p l dst) ↔ 0 ≤ l ∧ p + l ≤ b.offset) ∧
    (∀ src dst, src ≠ [] → Runs (aya_buf_replace_first_string K b src dst)) ∧
    (Runs (process_template K S b) ↔ TemplateOrdered S b.data) ∧
    ((∀ u, Visits (process_comment_body K) b u → CommentInside K u) ↔
      ∀ u, Visits (process_comment_body K) b u → CommentOrdered u.data) ∧
    ((∀ u, Visits (process_statement_body K S) b u → StatementInside K S u) ↔
      ∀ u, Visits (process_statement_body K S) b u → StatementOrdered S u.data) := by
  refine ⟨fun token => parser_inside_iff K b, replace_string_runs_iff b,
    fun src dst => replace_first_string_runs K b dst, process_template_runs_iff K S b, ?_, ?_⟩
  · exact forall_congr' fun u => imp_congr_right fun _ => comment_inside_iff K u
  · exact forall_congr' fun u => imp_congr_right fun _ => statement_inside_iff K S u

/-- An IF directive without a bracket, and a closing mark in front of an opening one. -/
theorem passes_leave_buffer :
    (¬ ∀ K b, ParserInside K b TOk_IF) ∧ ¬ ∀ K b, CommentInside K b := by
  constructor
  · intro hall
    obtain ⟨m, hm⟩ := (hall reference (kore_buf_of (bytes "<p>@if(user</p>"))).runs
    have hrun : parser reference (kore_buf_of (bytes "<p>@if(user</p>")) TOk_IF =
      .error .outOfBounds := by decide +kernel
    rw [hrun] at hm
    cases hm
  · intro hall
    have hmarks : comment_marks reference (kore_buf_of (bytes "*/@ text @/*")) =
      .ok (some (9, 0)) := by decide +kernel
    have hlen := (hall reference (kore_buf_of (bytes "*/@ text @/*"))).ordered 9 0 hmarks
    omega

end ViewMemorySafety
