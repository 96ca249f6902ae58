import Ayahesa.IniLines

/-! # INI documents

A document is written as lines: those of its sections and pairs, and blank lines and comments
between them. -/
namespace IniDocument

open CMemory CompatStrings IniParser IniLines

def newline : UInt8 := 10

def Blank (text : Bytes) : Prop := ∀ c ∈ text, isspace c = true

theorem blank_of_all {text : Bytes} (h : text.all isspace = true) : Blank text :=
  List.all_eq_true.mp h

def Tight (text : Bytes) : Prop :=
  (∀ c, text.head? = some c → isspace c = false) ∧ ∀ c, text.getLast? = some c → isspace c = false

/-- No white space in front of a semicolon. -/
def CommentFree (text : Bytes) : Prop := ∀ w, isspace w = true → ¬[w, 59] <:+: text

def OneLine (text : Bytes) : Prop := newline ∉ text ∧ 0 ∉ text

inductive Filler where
  | blank (blanks : Bytes)
  | comment (blanks : Bytes) (mark : UInt8) (text : Bytes)

def Filler.text : Filler → Bytes
  | .blank blanks => blanks
  | .comment blanks mark text => blanks ++ mark :: text

def Filler.Valid : Filler → Prop
  | .blank blanks => Blank blanks
  | .comment blanks mark _ => Blank blanks ∧ (mark = 59 ∨ mark = 35)

/-- `name`, a separator between blanks, `value`, and an inline comment if there is one. -/
structure Pair where
  name : Bytes
  before : Bytes
  sep : UInt8
  after : Bytes
  value : Bytes
  blanks : Bytes
  comment : Option Bytes

def Pair.text (p : Pair) : Bytes :=
  p.name ++ p.before ++ p.sep :: (p.after ++ p.value ++ p.blanks ++
    p.comment.elim [] fun comment => 59 :: comment)

structure Pair.Valid (p : Pair) : Prop where
  name_length : 1 ≤ p.name.length ∧ p.name.length ≤ 49
  name_tight : Tight p.name
  name_comment : CommentFree p.name
  name_sep : 61 ∉ p.name ∧ 58 ∉ p.name
  name_head : ∀ c, p.name.head? = some c → c ≠ 91 ∧ c ≠ 59 ∧ c ≠ 35
  before_blank : Blank p.before
  sep_mark : p.sep = 61 ∨ p.sep = 58
  after_blank : Blank p.after
  value_tight : Tight p.value
  value_comment : CommentFree p.value
  value_head : ∀ c, p.value.head? = some c → c ≠ 59
  blanks_blank : Blank p.blanks
  comment_blanks : p.comment.isSome → p.blanks ≠ []

/-- What stands behind the closing bracket is not looked at. -/
structure Part where
  name : Bytes
  rest : Bytes
  body : List (Filler ⊕ Pair)

def Part.header (s : Part) : Bytes := 91 :: (s.name ++ 93 :: s.rest)

structure Part.Valid (s : Part) : Prop where
  name_length : s.name.length ≤ 49
  name_close : 93 ∉ s.name
  name_comment : CommentFree s.name
  filler : ∀ f, .inl f ∈ s.body → f.Valid
  pair : ∀ p, .inr p ∈ s.body → p.Valid

structure Document where
  preamble : List Filler
  parts : List Part

/-- A line as it is written, and the section, name and value it stands for. -/
abbrev Line := Bytes × Option (Bytes × Bytes × Bytes)

def Part.line (s : Part) : Filler ⊕ Pair → Line
  | .inl f => (f.text, none)
  | .inr p => (p.text, some (s.name, p.name, p.value))

def Part.lines (s : Part) : List Line := (s.header, none) :: s.body.map s.line

def Document.lines (doc : Document) : List Line :=
  doc.preamble.map (fun f => (f.text, none)) ++ doc.parts.flatMap Part.lines

structure Document.Valid (doc : Document) : Prop where
  preamble : ∀ f ∈ doc.preamble, f.Valid
  parts : ∀ s ∈ doc.parts, s.Valid
  one_line : ∀ line ∈ doc.lines, OneLine line.1

def Part.pair? (s : Part) : Filler ⊕ Pair → Option (Bytes × Bytes × Bytes)
  | .inl _ => none
  | .inr p => some (s.name, p.name, p.value)

def Document.pairs (doc : Document) : List (Bytes × Bytes × Bytes) :=
  doc.parts.flatMap fun s => s.body.filterMap s.pair?

/-! ## White space -/

theorem stripped_blank {text : Bytes} (h : Blank text) : stripped text = [] := by
  rw [stripped, List.rdropWhile_eq_nil_iff]
  exact h

theorem stripped_append_cons (front : Bytes) {c : UInt8} (hc : isspace c = false)
    (behind : Bytes) : stripped (front ++ c :: behind) = front ++ c :: stripped behind := by
  induction behind using List.reverseRecOn with
  | nil => simp [stripped, hc]
  | append_singleton behind d ih =>
    rw [← List.cons_append, ← List.append_assoc]
    by_cases hd : isspace d = true
    · rw [stripped, List.rdropWhile_concat_pos _ _ _ hd, stripped,
        List.rdropWhile_concat_pos _ _ _ hd]
      exact ih
    · rw [stripped, List.rdropWhile_concat_neg _ _ _ hd, stripped,
        List.rdropWhile_concat_neg _ _ _ hd]
      simp

theorem stripped_append_blank (text : Bytes) {blanks : Bytes} (h : Blank blanks) :
    stripped (text ++ blanks) = stripped text := by
  induction blanks using List.reverseRecOn with
  | nil => rw [List.append_nil]
  | append_singleton blanks c ih =>
    have hc := h c (List.mem_append_right _ List.mem_cons_self)
    rw [← List.append_assoc, stripped, List.rdropWhile_concat_pos _ _ _ hc]
    exact ih fun d hd => h d (List.mem_append_left _ hd)

theorem stripped_tight {text : Bytes} (h : Tight text) : stripped text = text := by
  rw [stripped, List.rdropWhile_eq_self_iff]
  intro hne
  have hlast := h.2 (text.getLast hne) (List.getLast?_eq_some_getLast hne)
  simp [hlast]

theorem dropWhile_tight {text : Bytes} (h : Tight text) (behind : Bytes) (hne : text ≠ []) :
    (text ++ behind).dropWhile isspace = text ++ behind := by
  obtain ⟨c, text, rfl⟩ := List.exists_cons_of_ne_nil hne
  have hc := h.1 c rfl
  simp [hc]

theorem value_between {before text behind : Bytes} (hbefore : Blank before) (h : Tight text)
    (hbehind : Blank behind) :
    stripped ((before ++ (text ++ behind)).dropWhile isspace) = text := by
  rw [List.dropWhile_append_of_pos hbefore]
  by_cases hne : text = []
  · have hnil : behind.dropWhile isspace = [] := List.dropWhile_eq_nil_iff.mpr hbehind
    rw [hne, List.nil_append, hnil]
    rfl
  · rw [dropWhile_tight h behind hne, stripped_append_blank text hbehind, stripped_tight h]

/-! ## The end of a text -/

/-- A text without wanted characters and comments is passed over. -/
theorem end_of_append {chars : Option Bytes} {was_space : Bool} {text : Bytes}
    (h : end_of none was_space text = text.length)
    (hchars : ∀ c ∈ text, chars.any (c ∈ ·) = false) (behind : Bytes) :
    end_of chars was_space (text ++ behind) =
      text.length + end_of chars (text.getLast?.elim was_space isspace) behind := by
  induction text generalizing was_space with
  | nil => simp
  | cons c text ih =>
    have hc := hchars c List.mem_cons_self
    have hlast : (c :: text).getLast?.elim was_space isspace =
        text.getLast?.elim (isspace c) isspace := by
      rw [List.getLast?_cons]
      cases text.getLast? <;> rfl
    rw [end_of] at h
    by_cases hcomment : was_space = true ∧ c = 59
    · rw [if_pos (Or.inr hcomment)] at h
      cases h
    rw [if_neg (by simpa using hcomment)] at h
    have ih := ih (Nat.succ.inj h) fun d hd => hchars d (List.mem_cons_of_mem c hd)
    rw [List.cons_append, end_of, if_neg (by simp [hc, hcomment]), ih, hlast, List.length_cons]
    omega

theorem end_of_blank {text : Bytes} (h : Blank text) (was_space : Bool) :
    end_of none was_space text = text.length := by
  induction text generalizing was_space with
  | nil => rfl
  | cons c text ih =>
    have hc : c ≠ 59 := by
      rintro rfl
      exact absurd (h 59 List.mem_cons_self) (by decide)
    rw [end_of, if_neg (by simp [hc]), ih fun d hd => h d (List.mem_cons_of_mem c hd)]
    rfl

theorem end_of_free {text : Bytes} (h : CommentFree text) (was_space : Bool)
    (hhead : was_space = true → text.head? ≠ some 59) :
    end_of none was_space text = text.length := by
  induction text generalizing was_space with
  | nil => rfl
  | cons c text ih =>
    have hc : ¬(was_space = true ∧ c = 59) := by
      rintro ⟨hw, rfl⟩
      exact hhead hw rfl
    have hfree : CommentFree text := fun w hw hin =>
      h w hw (hin.trans (List.infix_cons List.infix_rfl))
    have hnext : isspace c = true → text.head? ≠ some 59 := by
      intro hspace hsemi
      cases text with
      | nil => cases hsemi
      | cons d text =>
        obtain rfl : d = 59 := Option.some.inj hsemi
        exact h c hspace ⟨[], text, rfl⟩
    rw [end_of, if_neg (by simpa using hc), ih hfree (isspace c) hnext]
    rfl

/-! ## Kinds of lines -/

theorem filler_kind {f : Filler} (h : f.Valid) (indented : Bool) (prev_name : Bytes) :
    line_kind indented prev_name (trimmed (f.text ++ [newline])) = .skip := by
  have hnewline : Blank [newline] := by
    intro c hc
    obtain rfl := List.mem_singleton.mp hc
    rfl
  cases f with
  | blank blanks =>
    rw [trimmed, Filler.text, stripped_append_blank blanks hnewline, stripped_blank h]
    rfl
  | comment blanks mark text =>
    have hmark : isspace mark = false := by rcases h.2 with rfl | rfl <;> rfl
    have htrimmed : trimmed (blanks ++ mark :: text ++ [newline]) =
        mark :: stripped (text ++ [newline]) := by
      rw [trimmed, List.append_assoc, List.cons_append, stripped_append_cons blanks hmark,
        List.dropWhile_append_of_pos h.1]
      simp [hmark]
    rw [Filler.text, htrimmed, line_kind, if_pos h.2]

theorem header_kind {s : Part} (h : s.Valid) {indented : Bool} {prev_name : Bytes}
    (hprev : prev_name = [] ∨ indented = false) :
    line_kind indented prev_name (trimmed (s.header ++ [newline])) = .header s.name := by
  have htrimmed : trimmed (s.header ++ [newline]) =
      91 :: (s.name ++ 93 :: stripped (s.rest ++ [newline])) := by
    have hsplit : s.header ++ [newline] = (91 :: s.name) ++ 93 :: (s.rest ++ [newline]) := by
      simp [Part.header]
    rw [hsplit, trimmed, stripped_append_cons _ (by decide)]
    rfl
  have hfree := end_of_free h.name_comment false (fun hfalse => absurd hfalse (by decide))
  have hchars : ∀ c ∈ s.name, (some (bytes "]")).any (c ∈ ·) = false := by
    intro c hc
    have hne : c ≠ 93 := fun heq => h.name_close (heq ▸ hc)
    simpa [show bytes "]" = [93] by decide] using hne
  have hend := end_of_append hfree hchars (93 :: stripped (s.rest ++ [newline]))
  have hstop : ∀ w rest, end_of (some (bytes "]")) w (93 :: rest) = 0 := by
    intro w rest
    rw [end_of, if_pos (Or.inl (by decide))]
  rw [hstop, Nat.add_zero] at hend
  have hmore : ¬(prev_name ≠ [] ∧ indented = true) := by
    rintro ⟨hne, htrue⟩
    rcases hprev with heq | hfalse
    · exact hne heq
    · rw [hfalse] at htrue
      cases htrue
  rw [htrimmed, line_kind, if_neg (by decide), if_neg hmore, if_pos rfl, hend]
  simp

/-- What stands behind the separator gives the value back. -/
theorem value_of_pair {p : Pair} (h : p.Valid) :
    value_of (stripped (p.after ++ p.value ++ p.blanks ++
      p.comment.elim [] (fun comment => 59 :: comment) ++ [newline])) = p.value := by
  have hafter := end_of_blank h.after_blank false
  have hvalue := end_of_free h.value_comment (p.after.getLast?.elim false isspace) fun _ hsemi =>
    h.value_head 59 hsemi rfl
  have hnone : ∀ text : Bytes, ∀ c ∈ text, (none : Option Bytes).any (c ∈ ·) = false :=
    fun _ _ _ => rfl
  have hfront := end_of_append hafter (hnone p.after) p.value
  rw [hvalue, ← List.length_append] at hfront
  cases hcomment : p.comment with
  | none =>
    have hnewline : Blank (p.blanks ++ [newline]) := by
      intro c hc
      rcases List.mem_append.mp hc with hc | hc
      · exact h.blanks_blank c hc
      · obtain rfl := List.mem_singleton.mp hc
        rfl
    rw [Option.elim_none, List.append_nil, List.append_assoc, stripped_append_blank _ hnewline]
    by_cases hne : p.value = []
    · rw [hne, List.append_nil, stripped_blank h.after_blank]
      rfl
    · have hlast : stripped (p.after ++ p.value) = p.after ++ p.value := by
        rw [stripped, List.rdropWhile_eq_self_iff]
        intro hne'
        rw [List.getLast_append_of_ne_nil hne' hne]
        simpa using h.value_tight.2 _ (List.getLast?_eq_some_getLast hne)
      have hbetween := @value_between p.after p.value [] h.after_blank h.value_tight
        fun c hc => absurd hc List.not_mem_nil
      rw [List.append_nil] at hbetween
      rw [hlast, value_of, hfront, List.take_length, hbetween]
  | some comment =>
    have hne := h.comment_blanks (by rw [hcomment]; rfl)
    have hlast : (p.after ++ p.value ++ p.blanks).getLast?.elim false isspace = true := by
      have hget := List.getLast_mem hne
      rw [List.getLast?_append_of_ne_nil _ hne, List.getLast?_eq_some_getLast hne]
      exact h.blanks_blank _ hget
    have hblanks := end_of_append hfront (hnone _) p.blanks
    rw [end_of_blank h.blanks_blank, ← List.length_append] at hblanks
    have hend := end_of_append hblanks (hnone _) (59 :: stripped (comment ++ [newline]))
    have hstop : end_of none true (59 :: stripped (comment ++ [newline])) = 0 := by
      rw [end_of, if_pos (Or.inr ⟨rfl, rfl⟩)]
    rw [hlast, hstop, Nat.add_zero] at hend
    rw [Option.elim_some, List.append_assoc _ (59 :: comment), List.cons_append,
      stripped_append_cons _ (by decide), value_of, hend, List.take_left, List.append_assoc]
    exact value_between h.after_blank h.value_tight h.blanks_blank

theorem line_kind_pair {text : Bytes} {n : ℕ} (prev_name : Bytes)
    (hhead : ∀ c, text.head? = some c → c ≠ 91 ∧ c ≠ 59 ∧ c ≠ 35)
    (hn : end_of (some (bytes "=:")) false text = n)
    (hget : text[n]? = some 61 ∨ text[n]? = some 58) :
    line_kind false prev_name text =
      .pair (stripped (text.take n)) (value_of (text.drop (n + 1))) := by
  cases text with
  | nil => rcases hget with hget | hget <;> cases hget
  | cons c text =>
    obtain ⟨hopen, hsemi, hhash⟩ := hhead c rfl
    rw [line_kind, if_neg (by simp [hsemi, hhash]), if_neg (by simp), if_neg hopen, hn,
      if_pos hget]

theorem pair_kind {p : Pair} (h : p.Valid) (prev_name : Bytes) :
    line_kind false prev_name (trimmed (p.text ++ [newline])) = .pair p.name p.value := by
  have hne : p.name ≠ [] := List.ne_nil_of_length_pos h.name_length.1
  have hsep : isspace p.sep = false := by rcases h.sep_mark with hs | hs <;> rw [hs] <;> rfl
  obtain ⟨w, hw⟩ : ∃ w, w = stripped (p.after ++ p.value ++ p.blanks ++
    p.comment.elim [] (fun comment => 59 :: comment) ++ [newline]) := ⟨_, rfl⟩
  have htrimmed : trimmed (p.text ++ [newline]) = p.name ++ (p.before ++ p.sep :: w) := by
    rw [trimmed, Pair.text, List.append_assoc (p.name ++ p.before), List.cons_append,
      stripped_append_cons _ hsep, ← hw, List.append_assoc,
      dropWhile_tight h.name_tight _ hne]
  -- neither the name nor the blanks behind it hold a separator or start a comment
  have hfree := end_of_free h.name_comment false (fun hfalse => absurd hfalse (by decide))
  have hnone : ∀ c ∈ p.name, (none : Option Bytes).any (c ∈ ·) = false := fun _ _ => rfl
  have hfront := end_of_append hfree hnone p.before
  rw [end_of_blank h.before_blank, ← List.length_append] at hfront
  have hchars : ∀ d ∈ p.name ++ p.before, (some (bytes "=:")).any (d ∈ ·) = false := by
    intro d hd
    have hne : d ≠ 61 ∧ d ≠ 58 := by
      rcases List.mem_append.mp hd with hd | hd
      · exact ⟨fun heq => h.name_sep.1 (heq ▸ hd), fun heq => h.name_sep.2 (heq ▸ hd)⟩
      · have hspace := h.before_blank d hd
        constructor <;> rintro rfl <;> cases hspace
    simpa [show bytes "=:" = [61, 58] by decide] using hne
  have hend := end_of_append hfront hchars (p.sep :: w)
  have hstop : ∀ b, end_of (some (bytes "=:")) b (p.sep :: w) = 0 := by
    intro b
    rw [end_of, if_pos (Or.inl (by rcases h.sep_mark with hs | hs <;> rw [hs] <;> decide))]
  rw [hstop, Nat.add_zero, List.append_assoc] at hend
  have hget : (p.name ++ (p.before ++ p.sep :: w))[(p.name ++ p.before).length]? = some p.sep := by
    rw [← List.append_assoc, List.getElem?_append_right (Nat.le_refl _)]
    simp
  have hhead : ∀ c, (p.name ++ (p.before ++ p.sep :: w)).head? = some c →
      c ≠ 91 ∧ c ≠ 59 ∧ c ≠ 35 := by
    intro c hc
    rw [List.head?_append_of_ne_nil _ hne] at hc
    exact h.name_head c hc
  have hmark : (p.name ++ (p.before ++ p.sep :: w))[(p.name ++ p.before).length]? = some 61 ∨
      (p.name ++ (p.before ++ p.sep :: w))[(p.name ++ p.before).length]? = some 58 := by
    rw [hget]
    exact h.sep_mark.imp (congrArg some) (congrArg some)
  rw [htrimmed, line_kind_pair prev_name hhead hend hmark, ← List.append_assoc,
    List.take_left, stripped_append_blank _ h.before_blank, stripped_tight h.name_tight,
    ← List.drop_drop, List.drop_left, List.drop_succ_cons, List.drop_zero, hw, value_of_pair h]

end IniDocument
