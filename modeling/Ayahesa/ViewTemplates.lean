import Ayahesa.ViewDirectives

/-! # The template pass

The body that goes into the layout starts at a position computed from the trimmed pointer and
the untrimmed length of the argument, and ends at the NUL put over the end mark. -/
namespace ViewTemplates

open CMemory CompatStrings ByteSearch KoreApi KoreBuffer ViewPasses ViewDirectives

def templateClosed (X arg Y : Bytes) : Bytes := X ++ (TOk_TEMPLATE ++ (wiped arg ++ 0 :: Y))

/-- Where the body is taken from: the leading blanks of the argument are counted twice. -/
def bodyStart (X arg : Bytes) : ℕ := X.length + TOk_TEMPLATE.length + leading arg + arg.length + 1

theorem drop_bodyStart (X arg Y : Bytes) :
    (templateClosed X arg Y).drop (bodyStart X arg) = Y.drop (leading arg) := by
  have hhead : ((X ++ (TOk_TEMPLATE ++ wiped arg)) ++ [0]).length + leading arg =
      bodyStart X arg := by
    simp only [bodyStart, List.length_append, List.length_singleton, wiped_length]
    omega
  have hsplit : templateClosed X arg Y = ((X ++ (TOk_TEMPLATE ++ wiped arg)) ++ [0]) ++ Y := by
    simp [templateClosed]
  rw [hsplit, ← hhead, ← List.drop_drop, List.drop_left]

section Round

variable {S : Symbols} {b : KoreBuf} {X arg Y : Bytes}

theorem process_template_free (K : Kore) (h : Free TOk_TEMPLATE b.data) :
    process_template K S b = .ok b := by
  simp only [process_template, parser_free K TOk_TEMPLATE_token h, bind, Except.bind, pure,
    Except.pure]

theorem process_template_cut (K : Kore) (ha : Plain arg) (hX : Free TOk_TEMPLATE X)
    (h : b.data = X ++ (TOk_TEMPLATE ++ (arg ++ 0 :: Y))) : process_template K S b = .ok b := by
  simp only [process_template, parser_cut K TOk_TEMPLATE_token ha hX h, bind, Except.bind, pure,
    Except.pure]

theorem process_template_open (K : Kore) (ha : Plain arg) (hX : Free TOk_TEMPLATE X)
    (h : b.data = X ++ (TOk_TEMPLATE ++ arg)) : process_template K S b = .error .outOfBounds := by
  simp only [process_template, parser_open K TOk_TEMPLATE_token ha hX h, bind, Except.bind]

theorem process_template_empty (K : Kore) (hX : Free TOk_TEMPLATE X)
    (h : b.data = X ++ (TOk_TEMPLATE ++ TOk_CLOSE :: Y)) : process_template K S b = .ok b := by
  have hp : parser K b TOk_TEMPLATE = .ok (some (matchAt X TOk_TEMPLATE [])) :=
    parser_closed K TOk_TEMPLATE_token ⟨List.not_mem_nil, List.not_mem_nil⟩ hX h
  simp [process_template, hp, matchAt, bind, Except.bind, pure, Except.pure]

theorem process_template_at (K : Kore) (ha : Plain arg) (hne : arg ≠ [])
    (hX : Free TOk_TEMPLATE X) (h : b.data = X ++ (TOk_TEMPLATE ++ (arg ++ TOk_CLOSE :: Y))) :
    process_template K S b =
      match include_asset S (trimmed arg) with
      | none => .ok ⟨templateClosed X arg Y, b.length⟩
      | some asset => (do
        let (buffer, body) ← template_body K ⟨templateClosed X arg Y, b.length⟩ (bodyStart X arg)
        match body with
        | none => return buffer
        | some body => aya_buf_replace_first_string K (kore_buf_of asset) yield_mark body) := by
  have hp := parser_closed K TOk_TEMPLATE_token ha hX h
  have hclosed := closed_argument_at h ha.clean
  have hsz : (matchAt X TOk_TEMPLATE arg).argumentsz ≠ 0 := by simpa [matchAt] using hne
  have hname : cstr (templateClosed X arg Y) (X.length + TOk_TEMPLATE.length + leading arg) =
      .ok (trimmed arg) := closed_name ha.clean
  have hdata : X ++ (TOk_TEMPLATE ++ (wiped arg ++ 0 :: Y)) = templateClosed X arg Y := rfl
  rw [hdata] at hclosed
  simp only [process_template, hp, hsz, if_false, hclosed, Buffer.region, hname, bind, Except.bind,
    pure, Except.pure]
  cases include_asset S (trimmed arg) with
  | none => rfl
  | some asset => rfl

/-- The end mark is searched from the start of the buffer; a NUL is put over it. -/
theorem template_body_eq (K : Kore) (b : KoreBuf) (i : ℕ) : template_body K b i =
    match find TOk_ENDTEMPLATE b.data with
    | none => .ok (b, none)
    | some stop => (do
      let body ← cstr (b.data.set stop 0) i
      return (⟨b.data.set stop 0, b.length⟩, some body)) := by
  have hk := b.holds.mem_find K TOk_ENDTEMPLATE_token.head.ne_nil
  simp only [template_body, hk, bind, Except.bind, pure, Except.pure]
  cases hf : find TOk_ENDTEMPLATE b.data with
  | none => rfl
  | some stop =>
    have hb := find_bound TOk_ENDTEMPLATE_token.head.ne_nil hf
    have hpos := TOk_ENDTEMPLATE_token.head.length_pos
    simp only [Buffer.region, store, show stop < b.data.length by omega, if_true]
    rfl

end Round

end ViewTemplates
