import Ayahesa.ViewPasses

/-! # What one search for a directive finds

All passes find their directive through `parser` and close its argument in place. The search
either stops at the closing bracket, gives up at a NUL, or leaves the buffer. -/
namespace ViewDirectives

open CMemory CompatStrings ByteSearch KoreApi KoreBuffer LoopIteration ViewPasses

/-- A token does not overlap itself and holds neither the bracket nor a NUL. -/
structure IsToken (token : Bytes) : Prop where
  head : HeadUnique token
  open_ : TOk_CLOSE ∉ token
  clean : 0 ∉ token

theorem isToken_cons (c : UInt8) {cs : Bytes}
    (h : c ∉ cs ∧ TOk_CLOSE ∉ c :: cs ∧ 0 ∉ c :: cs) : IsToken (c :: cs) :=
  ⟨⟨c, cs, rfl, h.1⟩, h.2.1, h.2.2⟩

theorem TOk_INCLUDE_token : IsToken TOk_INCLUDE := isToken_cons 64 (by decide)

theorem TOk_FUNCTION_token : IsToken TOk_FUNCTION := isToken_cons 64 (by decide)

theorem TOk_USER_VAR_token : IsToken TOk_USER_VAR := isToken_cons 64 (by decide)

theorem TOk_TEMPLATE_token : IsToken TOk_TEMPLATE := isToken_cons 64 (by decide)

theorem TOk_ENDTEMPLATE_token : IsToken TOk_ENDTEMPLATE := isToken_cons 64 (by decide)

theorem TOk_IF_token : IsToken TOk_IF := isToken_cons 64 (by decide)

theorem TOk_ENDIF_token : IsToken TOk_ENDIF := isToken_cons 64 (by decide)

theorem TOk_ELSE_token : IsToken TOk_ELSE := isToken_cons 64 (by decide)

theorem TOk_COMMENT_OPEN_token : IsToken TOk_COMMENT_OPEN := isToken_cons 64 (by decide)

theorem TOk_COMMENT_CLOSE_token : IsToken TOk_COMMENT_CLOSE := isToken_cons 42 (by decide)

section Search

variable {β : Type} [Buffer β] {c : β} {text slack : Bytes}

/-- Searches over the whole buffer never leave it. -/
theorem find_marks_holds (K : Kore) (h : Holds c text slack) {first second : Bytes}
    (hf : first ≠ []) (hs : second ≠ []) :
    find_marks K c first second = .ok ((find first text).bind fun p =>
      (find second text).map fun q => (p, q)) := by
  simp only [find_marks, h.mem_find K hf, bind, Except.bind, pure, Except.pure]
  cases find first text with
  | none => rfl
  | some p =>
    simp only [h.mem_find K hs]
    cases find second text with
    | none => rfl
    | some q => rfl

theorem find_marks_eq (K : Kore) (b : KoreBuf) {first second : Bytes} (hf : first ≠ [])
    (hs : second ≠ []) :
    find_marks K b first second = .ok ((find first b.data).bind fun p =>
      (find second b.data).map fun q => (p, q)) := find_marks_holds K b.holds hf hs

end Search

/-- Text that a search for the bracket passes. -/
structure Plain (arg : Bytes) : Prop where
  open_ : TOk_CLOSE ∉ arg
  clean : 0 ∉ arg

/-- What follows a token: an argument that is closed, one that a NUL cuts, or neither. -/
inductive Follows (rest : Bytes) : Prop where
  | closed {arg Y : Bytes} : rest = arg ++ TOk_CLOSE :: Y → Plain arg → Follows rest
  | cut {arg Y : Bytes} : rest = arg ++ 0 :: Y → Plain arg → Follows rest
  | unclosed : Plain rest → Follows rest

theorem follows (rest : Bytes) : Follows rest := by
  rcases strchr_cases [] rest (show TOk_CLOSE ≠ 0 by decide) with
    ⟨arg, Y, h, hc, h0, _⟩ | ⟨arg, Y, h, hc, h0, _⟩ | ⟨hc, h0, _⟩
  · exact .closed h ⟨hc, h0⟩
  · exact .cut h ⟨hc, h0⟩
  · exact .unclosed ⟨hc, h0⟩

def matchAt (X token arg : Bytes) : Match :=
  ⟨X.length + token.length, arg.length, X.length, token.length + arg.length⟩

section Parser

variable {K : Kore} {b : KoreBuf} {token X arg rest Y : Bytes}

private theorem token_plain (ht : IsToken token) (ha : Plain arg) :
    TOk_CLOSE ∉ token ++ arg ∧ 0 ∉ token ++ arg := by
  simp only [List.mem_append, not_or]
  exact ⟨⟨ht.open_, ha.open_⟩, ht.clean, ha.clean⟩

private theorem mem_find_at (K : Kore) (ht : IsToken token) (h : b.data = X ++ (token ++ rest))
    (hX : Free token X) :
    kore_mem_find K (Buffer.region b) 0 (Buffer.offset b) token = .ok (some X.length) := by
  rw [b.holds.mem_find K ht.head.ne_nil, h, find_at rest ht.head hX]

theorem parser_free_holds {β : Type} [Buffer β] {c : β} {text slack : Bytes} (K : Kore)
    (ht : IsToken token) (h : Holds c text slack) (hfree : Free token text) :
    parser K c token = .ok none := by
  have hfind := h.mem_find K ht.head.ne_nil
  rw [(find_eq_none_iff ht.head.ne_nil).mpr hfree] at hfind
  simp only [parser, hfind, bind, Except.bind, pure, Except.pure]

theorem parser_free (K : Kore) (ht : IsToken token) (h : Free token b.data) :
    parser K b token = .ok none := parser_free_holds K ht b.holds h

theorem parser_closed_holds {β : Type} [Buffer β] {c : β} {slack : Bytes} (K : Kore)
    (ht : IsToken token) (ha : Plain arg) (hX : Free token X)
    (h : Holds c (X ++ (token ++ (arg ++ TOk_CLOSE :: Y))) slack) :
    parser K c token = .ok (some (matchAt X token arg)) := by
  obtain ⟨hc, h0⟩ := token_plain ht ha
  have hfind := h.mem_find K ht.head.ne_nil
  rw [find_at _ ht.head hX] at hfind
  have hstr : strchr (Buffer.region c) X.length TOk_CLOSE =
      .ok (some (X.length + (token ++ arg).length)) := by
    have hfound : strchr (X ++ (token ++ arg ++ TOk_CLOSE :: (Y ++ slack))) X.length TOk_CLOSE =
      _ := strchr_found _ hc h0
    rw [h.region, ← hfound]
    congr 1
    simp
  simp only [parser, hfind, hstr, bind, Except.bind, pure, Except.pure, matchAt,
    List.length_append]
  congr 3 <;> omega

theorem parser_closed (K : Kore) (ht : IsToken token) (ha : Plain arg) (hX : Free token X)
    (h : b.data = X ++ (token ++ (arg ++ TOk_CLOSE :: Y))) :
    parser K b token = .ok (some (matchAt X token arg)) :=
  parser_closed_holds K ht ha hX (h ▸ b.holds)

theorem parser_cut (K : Kore) (ht : IsToken token) (ha : Plain arg) (hX : Free token X)
    (h : b.data = X ++ (token ++ (arg ++ 0 :: Y))) : parser K b token = .ok none := by
  obtain ⟨hc, h0⟩ := token_plain ht ha
  have hstr : strchr (Buffer.region b) X.length TOk_CLOSE = .ok none := by
    have hended : strchr (X ++ (token ++ arg ++ 0 :: Y)) X.length TOk_CLOSE = .ok none :=
      strchr_ended Y hc h0 (by decide)
    rwa [List.append_assoc, ← h] at hended
  simp only [parser, mem_find_at K ht h hX, hstr, bind, Except.bind, pure, Except.pure]

theorem parser_open (K : Kore) (ht : IsToken token) (ha : Plain rest) (hX : Free token X)
    (h : b.data = X ++ (token ++ rest)) : parser K b token = .error .outOfBounds := by
  obtain ⟨hc, h0⟩ := token_plain ht ha
  have hstr : strchr (Buffer.region b) X.length TOk_CLOSE = .error .outOfBounds := by
    have hregion : Buffer.region b = X ++ (token ++ rest) := h
    rw [hregion]
    exact strchr_over hc h0
  simp only [parser, mem_find_at K ht h hX, hstr, bind, Except.bind]

/-- Either the token does not occur or the buffer splits at its leftmost occurrence. -/
theorem token_cases (ht : IsToken token) (d : Bytes) :
    Free token d ∨ ∃ X rest, d = X ++ (token ++ rest) ∧ Free token X := by
  cases hf : find token d with
  | none => exact Or.inl ((find_eq_none_iff ht.head.ne_nil).mp hf)
  | some i =>
    obtain ⟨X, rest, hs, _, hX⟩ := find_split ht.head.ne_nil hf
    exact Or.inr ⟨X, rest, by rw [hs, List.append_assoc], hX⟩

theorem parser_ok_some {m : Match} (ht : IsToken token) (h : parser K b token = .ok (some m)) :
    ∃ X arg Y, b.data = X ++ (token ++ (arg ++ TOk_CLOSE :: Y)) ∧ Free token X ∧ Plain arg ∧
      m = matchAt X token arg := by
  rcases token_cases ht b.data with hfree | ⟨X, rest, hs, hX⟩
  · rw [parser_free K ht hfree] at h
    cases h
  · rcases follows rest with ⟨rfl, ha⟩ | ⟨rfl, ha⟩ | ha
    · rw [parser_closed K ht ha hX hs] at h
      exact ⟨X, _, _, hs, hX, ha, (Option.some.inj (Except.ok.inj h)).symm⟩
    · rw [parser_cut K ht ha hX hs] at h
      cases h
    · rw [parser_open K ht ha hX hs] at h
      cases h

/-- Closing writes NULs over the bracket and the blanks in front of it; the text is trimmed. -/
theorem closed_argument_region {β : Type} [Buffer β] {c : β}
    (h : Buffer.region c = X ++ (token ++ (arg ++ TOk_CLOSE :: Y))) (ha : 0 ∉ arg) :
    closed_argument c (matchAt X token arg) =
      .ok (Buffer.written c (X ++ (token ++ (wiped arg ++ 0 :: Y))),
        X.length + token.length + leading arg) := by
  have hstore : store (Buffer.region c) (X.length + token.length + arg.length) 0 =
      .ok (X ++ token ++ (arg ++ 0 :: Y)) := by
    rw [store, h, if_pos (by simp only [List.length_append, List.length_cons]; omega)]
    simp [List.set_append_right, Nat.add_assoc]
  have htrim : trim (X ++ token ++ (arg ++ 0 :: Y)) (X ++ token).length = _ := trim_at Y ha
  rw [List.length_append] at htrim
  have hcast : (((X.length + token.length : ℕ) : ℤ) + arg.length).toNat =
      X.length + token.length + arg.length := by omega
  simp only [closed_argument, matchAt, hcast, hstore, htrim, bind, Except.bind, pure, Except.pure]
  simp only [List.append_assoc]

theorem closed_argument_at (h : b.data = X ++ (token ++ (arg ++ TOk_CLOSE :: Y)))
    (ha : 0 ∉ arg) :
    closed_argument b (matchAt X token arg) =
      .ok (⟨X ++ (token ++ (wiped arg ++ 0 :: Y)), b.length⟩,
        X.length + token.length + leading arg) := by
  have hregion : Buffer.region b = X ++ (token ++ (arg ++ TOk_CLOSE :: Y)) := h
  exact closed_argument_region hregion ha

theorem closed_name (ha : 0 ∉ arg) :
    cstr (X ++ (token ++ (wiped arg ++ 0 :: Y))) (X.length + token.length + leading arg) =
      .ok (trimmed arg) := by
  have h : cstr (X ++ token ++ (wiped arg ++ 0 :: Y)) ((X ++ token).length + leading arg) = _ :=
    cstr_trimmed Y ha
  rwa [List.append_assoc, List.length_append] at h

end Parser

section LookedAt

variable {X token arg Y : Bytes}

/-- The directive that a search for its token stops at. -/
structure LookedAt (token d X arg Y : Bytes) : Prop where
  split : d = X ++ (token ++ (arg ++ TOk_CLOSE :: Y))
  leftmost : Free token X
  plain : Plain arg

theorem LookedAt.not_free {d : Bytes} (h : LookedAt token d X arg Y) : ¬Free token d := by
  intro hfree
  exact hfree.not_isInfix ⟨X, arg ++ TOk_CLOSE :: Y, by rw [h.split]; simp⟩

/-- The buffer once the argument of the directive is closed. -/
def closedAt (X token arg Y : Bytes) : Bytes := X ++ (token ++ (wiped arg ++ 0 :: Y))

theorem closedAt_length (X token arg Y : Bytes) :
    (closedAt X token arg Y).length = (X ++ (token ++ (arg ++ TOk_CLOSE :: Y))).length := by
  simp only [closedAt, List.length_append, List.length_cons, wiped_length]

theorem LookedAt.closedAt_ne {d : Bytes} (h : LookedAt token d X arg Y) :
    closedAt X token arg Y ≠ d := by
  intro heq
  rw [h.split] at heq
  have htail := List.append_cancel_left (List.append_cancel_left heq)
  have hrest := (List.append_inj htail (wiped_length arg)).2
  exact absurd (List.cons.inj hrest).1 (by decide)

/-- The NULs that close an argument belong to no mark. -/
private theorem free_closedAt_split {mark : Bytes} (hm : IsToken mark) :
    Free mark (closedAt X token arg Y) ↔
      Free mark (X ++ (token ++ stripped arg)) ∧ Free mark Y := by
  have hclosed : closedAt X token arg Y = (X ++ (token ++ stripped arg)) ++
      (List.replicate (arg.length - (stripped arg).length + 1) 0 ++ Y) := by
    simp [closedAt, wiped, List.replicate_succ']
  rw [hclosed]
  refine free_separated hm.head.ne_nil (by simp) fun c hc hmark => ?_
  exact hm.clean (List.eq_of_mem_replicate hc ▸ hmark)

theorem free_closedAt {mark : Bytes} (hm : IsToken mark)
    (h : Free mark (X ++ (token ++ (arg ++ TOk_CLOSE :: Y)))) :
    Free mark (closedAt X token arg Y) := by
  obtain ⟨blanks, hsplit, _⟩ := stripped_append_blanks arg
  rw [free_closedAt_split hm]
  constructor
  · refine h.of_isInfix ⟨[], blanks ++ TOk_CLOSE :: Y, ?_⟩
    nth_rewrite 2 [← hsplit]
    simp only [List.nil_append, List.append_assoc]
  · exact h.of_isInfix ⟨X ++ (token ++ (arg ++ [TOk_CLOSE])), [], by simp⟩

/-- It loses none either, unless the mark holds a blank. -/
theorem free_closedAt_iff {mark : Bytes} (hm : IsToken mark)
    (hblank : ∀ c ∈ mark, isspace c = false) : Free mark (closedAt X token arg Y) ↔
      Free mark (X ++ (token ++ (arg ++ TOk_CLOSE :: Y))) := by
  obtain ⟨blanks, hsplit, hblanks⟩ := stripped_append_blanks arg
  have hopen : X ++ (token ++ (arg ++ TOk_CLOSE :: Y)) =
      (X ++ (token ++ stripped arg)) ++ ((blanks ++ [TOk_CLOSE]) ++ Y) := by
    nth_rewrite 1 [← hsplit]
    simp
  rw [free_closedAt_split hm, hopen]
  refine (free_separated hm.head.ne_nil (by simp) fun c hc hmark => ?_).symm
  rcases List.mem_append.mp hc with hc | hc
  · exact Bool.false_ne_true ((hblank c hmark).symm.trans (hblanks c hc))
  · exact hm.open_ (List.mem_singleton.mp hc ▸ hmark)

end LookedAt

section Substitute

variable {K : Kore} {b b' : KoreBuf} {token X arg Y : Bytes}
  {text : Bytes → ℕ → ℕ → C (Bytes × Option Bytes)}

theorem substitute_free (K : Kore) (ht : IsToken token) (h : Free token b.data) :
    substitute K token text b = .ok (.done b) := by
  simp only [substitute, parser_free K ht h, bind, Except.bind, pure, Except.pure]

theorem substitute_cut (K : Kore) (ht : IsToken token) (ha : Plain arg) (hX : Free token X)
    (h : b.data = X ++ (token ++ (arg ++ 0 :: Y))) :
    substitute K token text b = .ok (.done b) := by
  simp only [substitute, parser_cut K ht ha hX h, bind, Except.bind, pure, Except.pure]

theorem substitute_open (K : Kore) (ht : IsToken token) (ha : Plain arg) (hX : Free token X)
    (h : b.data = X ++ (token ++ arg)) : substitute K token text b = .error .outOfBounds := by
  simp only [substitute, parser_open K ht ha hX h, bind, Except.bind]

theorem substitute_empty (K : Kore) (ht : IsToken token) (hX : Free token X)
    (h : b.data = X ++ (token ++ TOk_CLOSE :: Y)) : substitute K token text b = .ok (.done b) := by
  have hp : parser K b token = .ok (some (matchAt X token [])) :=
    parser_closed K ht ⟨List.not_mem_nil, List.not_mem_nil⟩ hX h
  simp [substitute, hp, matchAt, bind, Except.bind, pure, Except.pure]

theorem substitute_at (K : Kore) (ht : IsToken token) (ha : Plain arg) (hne : arg ≠ [])
    (hX : Free token X) (h : b.data = X ++ (token ++ (arg ++ TOk_CLOSE :: Y))) :
    substitute K token text b = (do
      let (data, str) ← text (X ++ (token ++ (wiped arg ++ 0 :: Y)))
        (X.length + token.length + leading arg) arg.length
      match str with
      | none => return .done ⟨data, b.length⟩
      | some str =>
        let buffer ← aya_buf_replace_string ⟨data, b.length⟩ X.length
          (token.length + arg.length) str
        return .next buffer) := by
  have hp := parser_closed K ht ha hX h
  have hclosed := closed_argument_at h ha.clean
  have hsz : (matchAt X token arg).argumentsz ≠ 0 := by
    simpa [matchAt] using hne
  simp only [substitute, hp, hsz, if_false, hclosed, bind, Except.bind]
  rfl

/-- A directive that names a text is replaced by it, with a NUL where the bracket was. -/
theorem named_text_at (K : Kore) (lookup : Bytes → Option Bytes) (ht : IsToken token)
    (ha : Plain arg) (hne : arg ≠ []) (hX : Free token X)
    (h : b.data = X ++ (token ++ (arg ++ TOk_CLOSE :: Y))) :
    substitute K token (named_text lookup) b =
      match lookup (trimmed arg) with
      | none => .ok (.done ⟨X ++ (token ++ (wiped arg ++ 0 :: Y)), b.length⟩)
      | some str => .ok (.next ⟨X ++ (str ++ 0 :: Y), b.offset + str.length⟩) := by
  have hname : cstr (X ++ (token ++ (wiped arg ++ 0 :: Y)))
      (X.length + token.length + leading arg) = .ok (trimmed arg) := closed_name ha.clean
  rw [substitute_at K ht ha hne hX h]
  simp only [named_text, hname, bind, Except.bind, pure, Except.pure]
  cases lookup (trimmed arg) with
  | none => rfl
  | some str =>
    have hsplit : X ++ (token ++ (wiped arg ++ 0 :: Y)) =
        X ++ ((token ++ wiped arg) ++ 0 :: Y) := by simp
    have hcut : aya_buf_replace_string ⟨X ++ (token ++ (wiped arg ++ 0 :: Y)), b.length⟩ X.length
        (token.length + arg.length) str = .ok ⟨X ++ (str ++ 0 :: Y), _⟩ :=
      replace_string_at str hsplit rfl (by simp [wiped_length])
    simp only [hcut]
    congr 3
    simp only [KoreBuf.offset, h, List.length_append, List.length_cons, wiped_length]

end Substitute

end ViewDirectives
