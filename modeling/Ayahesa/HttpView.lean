import Ayahesa.ViewDirectives
import Ayahesa.ViewPredefined

/-! # Rendering a view

`http_view` runs the passes in order on a buffer that holds the base view. A pass that loops is
given a number of rounds. Two buffers with the same bytes are rendered alike, whatever their
capacity. -/
namespace HttpView

open CMemory CompatStrings ByteSearch KoreApi KoreBuffer HttpRequest LoopIteration ViewPasses
open ViewDirectives ViewPredefined

section Passes

variable {β : Type} [Buffer β]

/-- Without request data or a session tree nothing is looked up. -/
def process_user_vars (K : Kore) (hdlr_extra : Option RequestData) (n : ℕ) (buffer : β) :
    Option (C β) :=
  match hdlr_extra.bind RequestData.session with
  | none => some (.ok buffer)
  | some session => run (process_user_vars_body K session) n buffer

/-- The passes that do not look at the request, in the order of `http_view`. -/
def view_passes (K : Kore) (S : Symbols) (n : ℕ) (buffer : β) : Option (C β) :=
  andThen (some (process_template K S buffer)) fun buffer =>
  andThen (run (process_include_body K S) n buffer) fun buffer =>
  run (process_comment_body K) n buffer

/-- The passes behind the place where the buffer could be cached. -/
def request_passes (K : Kore) (S : Symbols) (V : Surroundings) (n : ℕ) (buffer : β) :
    Option (C β) :=
  andThen (run (process_function_body K S) n buffer) fun buffer =>
  andThen (run (process_statement_body K S) n buffer) fun buffer =>
  andThen (process_user_vars K V.hdlr_extra n buffer) fun buffer =>
  some (process_predef_vars K V buffer)

end Passes

def render (K : Kore) (S : Symbols) (V : Surroundings) (n : ℕ) (baseview : Bytes) :
    Option (C Bytes) :=
  let buffer := kore_buf_of baseview
  match kore_mem_find K buffer.data 0 buffer.offset (bytes "@") with
  | .error e => some (.error e)
  | .ok none => some (.ok buffer.data)
  | .ok (some _) =>
    andThen (view_passes K S n buffer) fun buffer =>
    andThen (request_passes K S V n buffer) fun buffer =>
    some (.ok buffer.data)

structure Reply where
  code : ℤ
  content_type : Bytes
  body : Bytes
  deriving DecidableEq, Repr

def http_view (K : Kore) (S : Symbols) (V : Surroundings) (n : ℕ) (code : ℤ) (view : Bytes) :
    Option (C Reply) :=
  match include_asset S view with
  | none => some (.ok ⟨500, bytes "text/plain", bytes "View Not Found"⟩)
  | some baseview =>
    andThen (render K S V n baseview) fun str => some (.ok ⟨code, bytes "text/html", str⟩)

section Settles

variable {β : Type} [Buffer β] (K : Kore) (S : Symbols) (V : Surroundings)

theorem view_passes_settles (b : β) : Settles fun n => view_passes K S n b :=
  (settles_const _).andThen fun _ => (run_settles _).andThen fun _ => run_settles _

theorem process_user_vars_settles (hdlr_extra : Option RequestData) (b : β) :
    Settles fun n => process_user_vars K hdlr_extra n b := by
  unfold process_user_vars
  cases hdlr_extra.bind RequestData.session with
  | none => exact settles_const _
  | some session => exact run_settles b

theorem request_passes_settles (b : β) : Settles fun n => request_passes K S V n b :=
  (run_settles _).andThen fun _ => (run_settles _).andThen fun _ =>
    (process_user_vars_settles K V.hdlr_extra _).andThen fun _ => settles_const _

theorem render_settles (baseview : Bytes) : Settles fun n => render K S V n baseview := by
  simp only [render]
  split
  · exact settles_const _
  · exact settles_const _
  · exact (view_passes_settles K S _).andThen fun _ =>
      (request_passes_settles K S V _).andThen fun _ => settles_const _

end Settles

/-! ## The capacity of a buffer is never read -/

def SameData (b b' : KoreBuf) : Prop := b.data = b'.data

section SameData

variable {K : Kore} {S : Symbols} {b b' : KoreBuf}

theorem parser_same (token : Bytes) (h : SameData b b') : parser K b token = parser K b' token := by
  unfold SameData at h
  simp only [parser, Buffer.region, Buffer.offset, KoreBuf.offset, h]

theorem replace_string_same (p : ℕ) (l : ℤ) (dst : Bytes) (h : SameData b b') :
    Buffer.replace_string b p l dst = Buffer.replace_string b' p l dst := by
  unfold SameData at h
  simp only [Buffer.replace_string, aya_buf_replace_string, h]

theorem find_marks_same (first second : Bytes) (h : SameData b b') :
    find_marks K b first second = find_marks K b' first second := by
  unfold SameData at h
  simp only [find_marks, Buffer.region, Buffer.offset, KoreBuf.offset, h]

theorem closed_argument_cases (m : Match) (h : SameData b b') :
    (∃ e, closed_argument b m = .error e ∧ closed_argument b' m = .error e) ∨
    ∃ d a, closed_argument b m = .ok (⟨d, b.length⟩, a) ∧
      closed_argument b' m = .ok (⟨d, b'.length⟩, a) := by
  unfold SameData at h
  simp only [closed_argument, Buffer.region, Buffer.written, h, bind, Except.bind, pure,
    Except.pure]
  cases store b'.data (m.argument + m.argumentsz).toNat 0 with
  | error e => exact Or.inl ⟨e, rfl, rfl⟩
  | ok d =>
    dsimp only
    cases trim d m.argument with
    | error e => exact Or.inl ⟨e, rfl, rfl⟩
    | ok r => exact Or.inr ⟨r.1, r.2, rfl, rfl⟩

theorem substitute_same {token : Bytes} {text : Bytes → ℕ → ℕ → C (Bytes × Option Bytes)}
    (h : SameData b b') :
    StepRel SameData SameData (substitute K token text b) (substitute K token text b') := by
  simp only [substitute, parser_same token h, bind, Except.bind, pure, Except.pure]
  cases parser K b' token with
  | error e => exact .error e
  | ok r =>
    cases r with
    | none => exact .done h
    | some m =>
      dsimp only
      split
      · exact .done h
      · rcases closed_argument_cases m h with ⟨e, he, he'⟩ | ⟨d, a, hd, hd'⟩
        · simp only [he, he']
          exact .error e
        · simp only [hd, hd']
          cases text d a m.argumentsz.toNat with
          | error e => exact .error e
          | ok r =>
            obtain ⟨d', str⟩ := r
            cases str with
            | none => exact .done rfl
            | some str =>
              simp only [Buffer.written]
              rw [replace_string_same m.posx_start m.posx_length str
                (show SameData ⟨d', b.length⟩ ⟨d', b'.length⟩ from rfl)]
              cases Buffer.replace_string (⟨d', b'.length⟩ : KoreBuf) m.posx_start m.posx_length
                  str with
              | error e => exact .error e
              | ok b₁ => exact .next rfl

theorem comment_same (h : SameData b b') :
    StepRel SameData SameData (process_comment_body K b) (process_comment_body K b') := by
  simp only [process_comment_body, comment_marks, find_marks_same _ _ h, bind, Except.bind, pure,
    Except.pure]
  cases find_marks K b' TOk_COMMENT_OPEN TOk_COMMENT_CLOSE with
  | error e => exact .error e
  | ok r =>
    cases r with
    | none => exact .done h
    | some marks =>
      dsimp only
      rw [replace_string_same _ _ _ h]
      cases Buffer.replace_string b' marks.1 (marks.2 - marks.1 + TOk_COMMENT_CLOSE.length) [] with
      | error e => exact .error e
      | ok b₁ => exact .next rfl

theorem replace_first_string_same (K : Kore) {src : Bytes} (dst : Bytes) (hne : src ≠ [])
    (h : SameData b b') :
    ∃ r r', aya_buf_replace_first_string K b src dst = .ok r ∧
      aya_buf_replace_first_string K b' src dst = .ok r' ∧ SameData r r' := by
  rcases replace_first_string_cases K b dst hne with ⟨hfree, hr⟩ | ⟨left, right, hs, hf, hr⟩
  · exact ⟨b, b', hr, replace_first_string_free dst hne (h ▸ hfree), h⟩
  · unfold SameData at h
    rw [h] at hs hf
    exact ⟨_, _, hr, replace_first_string_found dst hne hs hf, rfl⟩

theorem finish_same (middle : Option ℕ) (h : SameData b b') :
    StepRel SameData SameData (finish_statement K b middle) (finish_statement K b' middle) := by
  cases middle with
  | none =>
    obtain ⟨r, r', hr, hr', hsame⟩ :=
      replace_first_string_same K [] TOk_ENDIF_token.head.ne_nil h
    simp only [finish_statement, hr, hr', bind, Except.bind, pure, Except.pure]
    exact .next hsame
  | some _ =>
    simp only [finish_statement, else_marks, find_marks_same _ _ h, bind, Except.bind, pure,
      Except.pure]
    cases find_marks K b' TOk_ELSE TOk_ENDIF with
    | error e => exact .error e
    | ok r =>
      cases r with
      | none => exact .done h
      | some marks =>
        dsimp only
        rw [replace_string_same _ _ _ h]
        cases Buffer.replace_string b' marks.1 (marks.2 - marks.1) [] with
        | error e => exact .error e
        | ok b₁ =>
          have hself : SameData b₁ b₁ := rfl
          obtain ⟨r, r', hr, hr', hsame⟩ :=
            replace_first_string_same K [] TOk_ENDIF_token.head.ne_nil hself
          simp only [hr]
          exact .next rfl

inductive FoundRel : C (KoreBuf ⊕ Statement KoreBuf) → C (KoreBuf ⊕ Statement KoreBuf) → Prop
  where
  | error (e) : FoundRel (.error e) (.error e)
  | left {b b' : KoreBuf} : SameData b b' → FoundRel (.ok (.inl b)) (.ok (.inl b'))
  | found {b b' : KoreBuf} (s : Statement KoreBuf) : SameData b b' →
    FoundRel (.ok (.inr { s with buffer := b })) (.ok (.inr { s with buffer := b' }))

theorem find_statement_same (h : SameData b b') :
    FoundRel (find_statement K b) (find_statement K b') := by
  simp only [find_statement, parser_same TOk_IF h, bind, Except.bind, pure, Except.pure]
  cases parser K b' TOk_IF with
  | error e => exact .error e
  | ok r =>
    cases r with
    | none => exact .left h
    | some m =>
      dsimp only
      by_cases hsz : m.argumentsz = 0
      · simp only [hsz, if_true]
        exact .left h
      · simp only [hsz, if_false]
        rcases closed_argument_cases m h with ⟨e, he, he'⟩ | ⟨d, a, hd, hd'⟩
        · simp only [he, he']
          exact .error e
        · simp only [hd, hd', Buffer.region, Buffer.offset, KoreBuf.offset]
          cases kore_mem_find K d a (d.length - m.posx_length.toNat) TOk_ENDIF with
          | error e => exact .error e
          | ok r =>
            cases r with
            | none => exact .left rfl
            | some stop =>
              dsimp only
              cases kore_mem_find K d a (stop - m.posx_start) TOk_ELSE with
              | error e => exact .error e
              | ok middle =>
                exact .found ⟨b, a, m.posx_start, m.posx_length, stop, middle⟩ rfl

theorem statement_same (h : SameData b b') :
    StepRel SameData SameData (process_statement_body K S b) (process_statement_body K S b') := by
  have hfound := find_statement_same (K := K) h
  simp only [process_statement_body, bind, Except.bind, pure, Except.pure]
  revert hfound
  generalize find_statement K b = x, find_statement K b' = y
  intro hfound
  cases hfound with
  | error e => exact .error e
  | left hsame => exact .done hsame
  | @found b₁ b₂ s hsame =>
    unfold SameData at hsame
    simp only [Buffer.region, hsame, Statement.replace_len]
    cases cstr b₂.data s.argument with
    | error e => exact .error e
    | ok var =>
      dsimp only
      by_cases hres : get_vvar S var < 0
      · simp only [hres, if_true]
        exact .done hsame
      · simp only [hres, if_false, replace_string_same _ _ _ (show SameData b₁ b₂ from hsame)]
        cases Buffer.replace_string b₂ s.pos_start _ [] with
        | error e => exact .error e
        | ok b₃ => exact finish_same s.middle rfl

theorem predef_vars_same (V : Surroundings) (h : SameData b b') :
    process_predef_vars K V b = process_predef_vars K V b' := by
  unfold SameData at h
  simp only [process_predef_vars, kore_buf_replace_string, Buffer.used, Buffer.buf_of, h]

/-- Behind the comment pass only the bytes of the buffer matter. -/
theorem request_passes_same (V : Surroundings) (n : ℕ) (h : SameData b b') :
    request_passes K S V n b = request_passes K S V n b' := by
  apply OutcomeRel.eq
  apply (run_lockstep (fun _ _ hs => substitute_same hs) n h).andThen
  intro c c' hc
  apply (run_lockstep (fun _ _ hs => statement_same hs) n hc).andThen
  intro c c' hc
  have hvars : OutcomeRel SameData (process_user_vars K V.hdlr_extra n c)
      (process_user_vars K V.hdlr_extra n c') := by
    unfold process_user_vars
    cases V.hdlr_extra.bind RequestData.session with
    | none => exact .returned hc
    | some session => exact run_lockstep (fun _ _ hs => substitute_same hs) n hc
  apply hvars.andThen
  intro c c' hc
  rw [predef_vars_same V hc]
  exact .refl (fun _ => rfl) _

end SameData

end HttpView
