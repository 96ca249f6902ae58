import Ayahesa.ViewDirectives

/-! # One round of the statement pass

The windows of the two inner searches are computed from lengths that have nothing to do with
where they start. The equations below say what each search sees and what the splices leave. -/
namespace ViewStatements

open CMemory CompatStrings ByteSearch KoreApi KoreBuffer LoopIteration ViewPasses ViewDirectives

/-- The buffer from the trimmed name on, once the argument is closed. -/
def after (arg Y : Bytes) : Bytes := (wiped arg).drop (leading arg) ++ 0 :: Y

/-- How much of the buffer the search for the end mark is told to look at. -/
def endWindow (X Y : Bytes) : ℕ := X.length + 1 + Y.length

def elseWindow (arg : Bytes) (e : ℕ) : ℕ := TOk_IF.length + leading arg + e

def endAt (X arg Y : Bytes) : Option ℕ := find TOk_ENDIF ((after arg Y).take (endWindow X Y))

def elseAt (arg Y : Bytes) (e : ℕ) : Option ℕ :=
  find TOk_ELSE ((after arg Y).take (elseWindow arg e))

def closedData (X arg Y : Bytes) : Bytes := X ++ (TOk_IF ++ (wiped arg ++ 0 :: Y))

def namePos (X arg : Bytes) : ℕ := X.length + TOk_IF.length + leading arg

theorem closedData_split (X arg Y : Bytes) : ∃ H, closedData X arg Y = H ++ after arg Y ∧
    H.length = namePos X arg := by
  refine ⟨X ++ TOk_IF ++ (wiped arg).take (leading arg), ?_, ?_⟩
  · simp only [closedData, after, List.append_assoc]
    rw [← List.append_assoc ((wiped arg).take _), List.take_append_drop]
  · have := leading_le arg
    simp only [namePos, List.length_append, List.length_take, wiped_length]
    omega

theorem mem_find_window (K : Kore) (H A : Bytes) (w : ℕ) {needle : Bytes} (hne : needle ≠ []) :
    kore_mem_find K (H ++ A) H.length w needle =
      match find needle (A.take w) with
      | some i => .ok (some (H.length + i))
      | none => if w ≤ A.length then .ok none else .error .outOfBounds := by
  unfold kore_mem_find
  rw [K.mem_find_eq hne, List.drop_left]
  cases find needle (A.take w) with
  | some i => rfl
  | none =>
    simp only [List.length_append]
    by_cases h : w ≤ A.length
    · rw [if_pos h, if_pos (by omega)]
    · rw [if_neg h, if_neg (by omega)]

section Found

variable {β : Type} [Buffer β] [LawfulBuffer β] {K : Kore} {S : Symbols} {c : β}
  {X arg Y slack : Bytes}

/-- The first half of a round. Both searches may look at what stands behind the text. -/
theorem find_statement_holds (K : Kore) (ha : Plain arg) (hne : arg ≠ []) (hX : Free TOk_IF X)
    (h : Holds c (X ++ (TOk_IF ++ (arg ++ TOk_CLOSE :: Y))) slack) :
    find_statement K c =
      match find TOk_ENDIF ((after arg (Y ++ slack)).take (endWindow X Y)) with
      | none =>
        if endWindow X Y ≤ (after arg (Y ++ slack)).length then
          .ok (.inl (Buffer.written c (closedData X arg (Y ++ slack))))
        else .error .outOfBounds
      | some e =>
        match elseAt arg (Y ++ slack) e with
        | some m => .ok (.inr ⟨Buffer.written c (closedData X arg (Y ++ slack)), namePos X arg,
            X.length, TOk_IF.length + arg.length, namePos X arg + e, some (namePos X arg + m)⟩)
        | none =>
          if elseWindow arg e ≤ (after arg (Y ++ slack)).length then
            .ok (.inr ⟨Buffer.written c (closedData X arg (Y ++ slack)), namePos X arg, X.length,
              TOk_IF.length + arg.length, namePos X arg + e, none⟩)
          else .error .outOfBounds := by
  have hp := parser_closed_holds K TOk_IF_token ha hX h
  have hsz : (matchAt X TOk_IF arg).argumentsz ≠ 0 := by simpa [matchAt] using hne
  have hregion : Buffer.region c = X ++ (TOk_IF ++ (arg ++ TOk_CLOSE :: (Y ++ slack))) := by
    rw [h.region]
    simp
  have hclosed : closed_argument c (matchAt X TOk_IF arg) =
      .ok (Buffer.written c (closedData X arg (Y ++ slack)), namePos X arg) :=
    closed_argument_region hregion ha.clean
  have hdata := LawfulBuffer.region_written c (closedData X arg (Y ++ slack))
  have hsame : (closedData X arg (Y ++ slack)).length = (Buffer.region c).length := by
    rw [hregion]
    simp only [closedData, List.length_append, List.length_cons, wiped_length]
  have hoffset := LawfulBuffer.offset_written c _ hsame
  obtain ⟨H, hH, hlen⟩ := closedData_split X arg (Y ++ slack)
  have hwin : Buffer.offset c - (matchAt X TOk_IF arg).posx_length.toNat = endWindow X Y := by
    have hcast : ((TOk_IF.length : ℤ) + arg.length).toNat = TOk_IF.length + arg.length := by omega
    rw [h.offset]
    simp only [matchAt, hcast, endWindow, List.length_append, List.length_cons]
    omega
  have hend := mem_find_window K H (after arg (Y ++ slack)) (endWindow X Y)
    TOk_ENDIF_token.head.ne_nil
  rw [← hH, hlen] at hend
  simp only [find_statement, hp, hsz, if_false, hclosed, bind, Except.bind, pure, Except.pure,
    hdata, hoffset, hwin, hend]
  cases he : find TOk_ENDIF ((after arg (Y ++ slack)).take (endWindow X Y)) with
  | none =>
    by_cases hw : endWindow X Y ≤ (after arg (Y ++ slack)).length
    · simp only [hw, if_true]
    · simp only [hw, if_false]
  | some e =>
    have hwin' : namePos X arg + e - (matchAt X TOk_IF arg).posx_start = elseWindow arg e := by
      simp only [matchAt, namePos, elseWindow]
      omega
    have helse := mem_find_window K H (after arg (Y ++ slack)) (elseWindow arg e)
      TOk_ELSE_token.head.ne_nil
    rw [← hH, hlen] at helse
    simp only [hwin', helse, elseAt]
    cases hm : find TOk_ELSE ((after arg (Y ++ slack)).take (elseWindow arg e)) with
    | some m => rfl
    | none =>
      by_cases hw : elseWindow arg e ≤ (after arg (Y ++ slack)).length
      · simp only [hw, if_true]
        rfl
      · simp only [hw, if_false]

/-- How much the first splice cuts out of the text behind `X`; the mark that stops it stands `k`
bytes behind the name. -/
def headLength (res : ℤ) (X arg : Bytes) (k : ℕ) : ℤ :=
  if res = 0 then ((namePos X arg + k : ℕ) : ℤ) - X.length else TOk_IF.length + arg.length

theorem body_holds (K : Kore) (S : Symbols) (ha : Plain arg) (hne : arg ≠ []) (hX : Free TOk_IF X)
    (h : Holds c (X ++ (TOk_IF ++ (arg ++ TOk_CLOSE :: Y))) slack) :
    process_statement_body K S c =
      match find TOk_ENDIF ((after arg (Y ++ slack)).take (endWindow X Y)) with
      | none =>
        if endWindow X Y ≤ (after arg (Y ++ slack)).length then
          .ok (.done (Buffer.written c (closedData X arg (Y ++ slack))))
        else .error .outOfBounds
      | some e =>
        match elseAt arg (Y ++ slack) e with
        | some m =>
          if get_vvar S (trimmed arg) < 0 then
            .ok (.done (Buffer.written c (closedData X arg (Y ++ slack))))
          else (Buffer.replace_string (Buffer.written c (closedData X arg (Y ++ slack))) X.length
            (headLength (get_vvar S (trimmed arg)) X arg m) []).bind fun buffer =>
              finish_statement K buffer (some (namePos X arg + m))
        | none =>
          if elseWindow arg e ≤ (after arg (Y ++ slack)).length then
            if get_vvar S (trimmed arg) < 0 then
              .ok (.done (Buffer.written c (closedData X arg (Y ++ slack))))
            else (Buffer.replace_string (Buffer.written c (closedData X arg (Y ++ slack))) X.length
              (headLength (get_vvar S (trimmed arg)) X arg e) []).bind fun buffer =>
                finish_statement K buffer none
          else .error .outOfBounds := by
  have hname : cstr (closedData X arg (Y ++ slack)) (namePos X arg) = .ok (trimmed arg) :=
    closed_name ha.clean
  have hdata := LawfulBuffer.region_written c (closedData X arg (Y ++ slack))
  rw [process_statement_body, find_statement_holds K ha hne hX h]
  cases find TOk_ENDIF ((after arg (Y ++ slack)).take (endWindow X Y)) with
  | none =>
    simp only
    split <;> rfl
  | some e =>
    dsimp only
    cases hm : elseAt arg (Y ++ slack) e with
    | some m =>
      simp only [hdata, hname, bind, Except.bind, Statement.replace_len, pure, Except.pure,
        headLength]
    | none =>
      by_cases hw : elseWindow arg e ≤ (after arg (Y ++ slack)).length
      · simp only [hw, if_true, hdata, hname, bind, Except.bind, Statement.replace_len, pure,
          Except.pure, headLength]
      · simp only [hw, if_false, bind, Except.bind]

end Found

section Round

variable {K : Kore} {S : Symbols} {b : KoreBuf} {X arg Y : Bytes}

theorem find_statement_at (K : Kore) (ha : Plain arg) (hne : arg ≠ []) (hX : Free TOk_IF X)
    (h : b.data = X ++ (TOk_IF ++ (arg ++ TOk_CLOSE :: Y))) :
    find_statement K b =
      match endAt X arg Y with
      | none =>
        if endWindow X Y ≤ (after arg Y).length then .ok (.inl ⟨closedData X arg Y, b.length⟩)
        else .error .outOfBounds
      | some e =>
        match elseAt arg Y e with
        | some m => .ok (.inr ⟨⟨closedData X arg Y, b.length⟩, namePos X arg, X.length,
            TOk_IF.length + arg.length, namePos X arg + e, some (namePos X arg + m)⟩)
        | none =>
          if elseWindow arg e ≤ (after arg Y).length then
            .ok (.inr ⟨⟨closedData X arg Y, b.length⟩, namePos X arg, X.length,
              TOk_IF.length + arg.length, namePos X arg + e, none⟩)
          else .error .outOfBounds := by
  have hfound := find_statement_holds K ha hne hX (h ▸ b.holds)
  rw [List.append_nil] at hfound
  exact hfound

/-- What the first splice leaves behind `X`: the text from `k` bytes behind the name on when the
condition is zero, else everything behind the argument, its closing NUL included. -/
def headRest (res : ℤ) (arg Y : Bytes) (k : ℕ) : Bytes :=
  if res = 0 then (after arg Y).drop k else 0 :: Y

def headCut (res : ℤ) (X arg Y : Bytes) (k : ℕ) : Bytes :=
  if res = 0 then X ++ (after arg Y).drop k else X ++ 0 :: Y

theorem closedData_head (res : ℤ) (X arg Y : Bytes) {k : ℕ} (hk : k ≤ (after arg Y).length) :
    ∃ mid, closedData X arg Y = X ++ (mid ++ headRest res arg Y k) ∧
      (mid.length : ℤ) = headLength res X arg k := by
  by_cases hz : res = 0
  · refine ⟨TOk_IF ++ (wiped arg).take (leading arg) ++ (after arg Y).take k, ?_, ?_⟩
    · simp only [headRest, hz, if_true, List.append_assoc, List.take_append_drop]
      simp only [closedData, after]
      rw [← List.append_assoc ((wiped arg).take _), List.take_append_drop]
    · have hlead := leading_le arg
      simp only [headLength, hz, if_true, List.length_append, List.length_take, wiped_length,
        namePos]
      omega
  · refine ⟨TOk_IF ++ wiped arg, ?_, ?_⟩
    · simp only [headRest, hz, if_false, closedData, List.append_assoc]
    · simp only [headLength, hz, if_false, List.length_append, wiped_length]
      omega

theorem headCut_splice (res : ℤ) (X arg Y : Bytes) (len : ℕ) {k : ℕ}
    (hk : k ≤ (after arg Y).length) :
    Buffer.replace_string (⟨closedData X arg Y, len⟩ : KoreBuf) X.length
      (headLength res X arg k) [] =
      .ok ⟨headCut res X arg Y k, (closedData X arg Y).length⟩ := by
  obtain ⟨mid, hsplit, hmid⟩ := closedData_head res X arg Y hk
  have hcut : headCut res X arg Y k = X ++ headRest res arg Y k := by
    unfold headCut headRest
    split <;> rfl
  rw [hcut]
  exact replace_string_at [] hsplit rfl hmid

def finished (N : Bytes) : Bytes :=
  match find TOk_ENDIF N with
  | none => N
  | some q => N.take q ++ N.drop (q + TOk_ENDIF.length)

theorem first_endif (K : Kore) (b : KoreBuf) :
    ∃ n, aya_buf_replace_first_string K b TOk_ENDIF [] = .ok ⟨finished b.data, n⟩ := by
  obtain ⟨n, hn⟩ := replace_first_string_eq K b [] TOk_ENDIF_token.head.ne_nil
  refine ⟨n, ?_⟩
  rw [hn, first_replaced, finished]
  cases find TOk_ENDIF b.data with
  | none => rfl
  | some q => rfl

theorem finish_none (K : Kore) (b : KoreBuf) :
    ∃ n, finish_statement K b none = .ok (.next ⟨finished b.data, n⟩) := by
  obtain ⟨n, hn⟩ := first_endif K b
  exact ⟨n, by simp only [finish_statement, hn, bind, Except.bind, pure, Except.pure]⟩

theorem else_marks_eq (K : Kore) (b : KoreBuf) :
    else_marks K b = .ok ((find TOk_ELSE b.data).bind fun p =>
      (find TOk_ENDIF b.data).map fun q => (p, q)) :=
  find_marks_eq K b TOk_ELSE_token.head.ne_nil TOk_ENDIF_token.head.ne_nil

/-- With both marks in order the part between them goes, then the first end mark. -/
theorem finish_some (K : Kore) {N : Bytes} (len : ℕ) {p q : ℕ} (i : ℕ)
    (hp : find TOk_ELSE N = some p) (hq : find TOk_ENDIF N = some q) (hpq : p ≤ q) :
    ∃ n, finish_statement K (⟨N, len⟩ : KoreBuf) (some i) =
      .ok (.next ⟨finished (N.take p ++ N.drop q), n⟩) := by
  have hb := find_bound TOk_ENDIF_token.head.ne_nil hq
  have hmarks := else_marks_eq K (⟨N, len⟩ : KoreBuf)
  simp only [hp, hq, Option.bind_some, Option.map_some] at hmarks
  have hsplit : N = N.take p ++ ((N.drop p).take (q - p) ++ N.drop q) := by
    rw [show N.drop q = (N.drop p).drop (q - p) by rw [List.drop_drop]; congr 1; omega,
      List.take_append_drop, List.take_append_drop]
  have hcut : Buffer.replace_string (⟨N, len⟩ : KoreBuf) p ((q : ℤ) - p) [] =
      .ok ⟨N.take p ++ ([] ++ N.drop q), _⟩ :=
    replace_string_at [] hsplit (by rw [List.length_take]; omega)
      (by simp only [List.length_take, List.length_drop]; omega)
  obtain ⟨n, hn⟩ := first_endif K
    ⟨N.take p ++ N.drop q, (⟨N, len⟩ : KoreBuf).offset + ([] : Bytes).length⟩
  refine ⟨n, ?_⟩
  simp only [List.nil_append] at hcut
  simp only [finish_statement, hmarks, hcut, hn, bind, Except.bind, pure, Except.pure]

/-- Marks in the wrong order make the length of the cut negative. -/
theorem finish_disordered {N : Bytes} {len p q : ℕ} (i : ℕ) (hp : find TOk_ELSE N = some p)
    (hq : find TOk_ENDIF N = some q) (hpq : q < p) :
    ∀ st, finish_statement K (⟨N, len⟩ : KoreBuf) (some i) ≠ .ok st := by
  have hmarks := else_marks_eq K (⟨N, len⟩ : KoreBuf)
  simp only [hp, hq, Option.bind_some, Option.map_some] at hmarks
  intro st h
  simp only [finish_statement, hmarks, bind, Except.bind] at h
  cases hcut : Buffer.replace_string (⟨N, len⟩ : KoreBuf) p ((q : ℤ) - p) [] with
  | error e => simp [hcut] at h
  | ok b' =>
    obtain ⟨hneg, _⟩ := replace_string_ok hcut
    omega

theorem finish_unmarked {N : Bytes} {len : ℕ} (i : ℕ)
    (h : find TOk_ELSE N = none ∨ find TOk_ENDIF N = none) :
    finish_statement K (⟨N, len⟩ : KoreBuf) (some i) = .ok (.done ⟨N, len⟩) := by
  have hmarks := else_marks_eq K (⟨N, len⟩ : KoreBuf)
  have hnone : (find TOk_ELSE N).bind (fun p => (find TOk_ENDIF N).map fun q => (p, q)) = none := by
    rcases h with h | h
    · rw [h]
      rfl
    · rw [h]
      cases find TOk_ELSE N <;> rfl
  simp only [hnone] at hmarks
  simp only [finish_statement, hmarks, bind, Except.bind, pure, Except.pure]

theorem endAt_bound {e : ℕ} (h : endAt X arg Y = some e) : e ≤ (after arg Y).length := by
  have hb := find_bound TOk_ENDIF_token.head.ne_nil h
  rw [List.length_take] at hb
  omega

theorem elseAt_bound {e m : ℕ} (h : elseAt arg Y e = some m) : m ≤ (after arg Y).length := by
  have hb := find_bound TOk_ELSE_token.head.ne_nil h
  rw [List.length_take] at hb
  omega

theorem body_empty (K : Kore) (S : Symbols) (hX : Free TOk_IF X)
    (h : b.data = X ++ (TOk_IF ++ TOk_CLOSE :: Y)) :
    process_statement_body K S b = .ok (.done b) := by
  have hp : parser K b TOk_IF = .ok (some (matchAt X TOk_IF [])) :=
    parser_closed K TOk_IF_token ⟨List.not_mem_nil, List.not_mem_nil⟩ hX h
  have hsz : (matchAt X TOk_IF []).argumentsz = 0 := rfl
  simp only [process_statement_body, find_statement, hp, hsz, if_true, bind, Except.bind, pure,
    Except.pure]

theorem body_at (K : Kore) (S : Symbols) (ha : Plain arg) (hne : arg ≠ []) (hX : Free TOk_IF X)
    (h : b.data = X ++ (TOk_IF ++ (arg ++ TOk_CLOSE :: Y))) :
    process_statement_body K S b =
      match endAt X arg Y with
      | none =>
        if endWindow X Y ≤ (after arg Y).length then .ok (.done ⟨closedData X arg Y, b.length⟩)
        else .error .outOfBounds
      | some e =>
        match elseAt arg Y e with
        | some m =>
          if get_vvar S (trimmed arg) < 0 then .ok (.done ⟨closedData X arg Y, b.length⟩)
          else finish_statement K
            ⟨headCut (get_vvar S (trimmed arg)) X arg Y m, (closedData X arg Y).length⟩
            (some (namePos X arg + m))
        | none =>
          if elseWindow arg e ≤ (after arg Y).length then
            if get_vvar S (trimmed arg) < 0 then .ok (.done ⟨closedData X arg Y, b.length⟩)
            else finish_statement K
              ⟨headCut (get_vvar S (trimmed arg)) X arg Y e, (closedData X arg Y).length⟩ none
          else .error .outOfBounds := by
  rw [body_holds K S ha hne hX (h ▸ b.holds), List.append_nil]
  change (match endAt X arg Y with | none => _ | some e => _) = _
  cases he : endAt X arg Y with
  | none => rfl
  | some e =>
    dsimp only
    cases hm : elseAt arg Y e with
    | some m =>
      have hcut := headCut_splice (get_vvar S (trimmed arg)) X arg Y b.length (elseAt_bound hm)
      simp only [Buffer.written, hcut, Except.bind]
    | none =>
      have hcut := headCut_splice (get_vvar S (trimmed arg)) X arg Y b.length (endAt_bound he)
      simp only [Buffer.written, hcut, Except.bind]

end Round

end ViewStatements
