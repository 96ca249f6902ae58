import Ayahesa.IniCalls
import Ayahesa.IniDocument

/-! # Parsing inverts printing

The lines of a document are read one by one; each of them is taken for what it was written
as, whatever lines stand in front of it. -/
namespace IniRoundTrip

open CMemory CompatStrings AppConfig IniParser IniLines IniDocument IniCalls

variable {σ : Type} {handler : Loader σ}

inductive Laid : Option Bytes → List Line → Prop where
  | nil {sect : Option Bytes} : Laid sect []
  | filler {sect : Option Bytes} {f : Filler} {rest : List Line} (h : f.Valid)
      (hrest : Laid sect rest) : Laid sect ((f.text, none) :: rest)
  | header {sect : Option Bytes} {s : Part} {rest : List Line} (h : s.Valid)
      (hrest : Laid (some s.name) rest) : Laid sect ((s.header, none) :: rest)
  | pair {sect : Bytes} {p : Pair} {rest : List Line} (h : p.Valid)
      (hrest : Laid (some sect) rest) :
      Laid (some sect) ((p.text, some (sect, p.name, p.value)) :: rest)

theorem laid_body {s : Part} {body : List (Filler ⊕ Pair)} {rest : List Line}
    (hfiller : ∀ f, .inl f ∈ body → f.Valid) (hpair : ∀ p, .inr p ∈ body → p.Valid)
    (hrest : Laid (some s.name) rest) :
    Laid (some s.name) (body.map s.line ++ rest) := by
  induction body with
  | nil => exact hrest
  | cons item body ih =>
    have ih := ih (fun f hf => hfiller f (List.mem_cons_of_mem item hf))
      (fun p hp => hpair p (List.mem_cons_of_mem item hp))
    cases item with
    | inl f => exact Laid.filler (hfiller f List.mem_cons_self) ih
    | inr p => exact Laid.pair (hpair p List.mem_cons_self) ih

theorem laid_parts {parts : List Part} (h : ∀ s ∈ parts, s.Valid) (sect : Option Bytes) :
    Laid sect (parts.flatMap Part.lines) := by
  induction parts generalizing sect with
  | nil => exact Laid.nil
  | cons s parts ih =>
    have hs := h s List.mem_cons_self
    have ih := ih (fun t ht => h t (List.mem_cons_of_mem s ht)) (some s.name)
    exact Laid.header hs (laid_body hs.filler hs.pair ih)

theorem laid_preamble {preamble : List Filler} (h : ∀ f ∈ preamble, f.Valid) {rest : List Line}
    (hrest : Laid none rest) : Laid none (preamble.map (fun f => (f.text, none)) ++ rest) := by
  induction preamble with
  | nil => exact hrest
  | cons f preamble ih =>
    have ih := ih fun g hg => h g (List.mem_cons_of_mem f hg)
    exact Laid.filler (h f List.mem_cons_self) ih

theorem laid_document {doc : Document} (h : doc.Valid) : Laid none doc.lines :=
  laid_preamble h.preamble (laid_parts h.parts none)

def calls : ℕ → List Line → List Setting
  | _, [] => []
  | lineno, (_, none) :: rest => calls (lineno + 1) rest
  | lineno, (_, some (sect, name, value)) :: rest =>
    ⟨sect, name, value, lineno⟩ :: calls (lineno + 1) rest

theorem calls_lines (lineno : ℕ) (lines : List Line) :
    (calls lineno lines).map (fun s => (s.sect, s.name, s.value)) = lines.filterMap Prod.snd := by
  induction lines generalizing lineno with
  | nil => rfl
  | cons line lines ih =>
    obtain ⟨text, _ | ⟨sect, name, value⟩⟩ := line
    · exact ih (lineno + 1)
    · have hcons : List.filterMap Prod.snd ((text, some (sect, name, value)) :: lines) =
          (sect, name, value) :: lines.filterMap Prod.snd := rfl
      rw [calls, List.map_cons, ih, hcons]

theorem calls_pairs (doc : Document) (lineno : ℕ) :
    (calls lineno doc.lines).map (fun s => (s.sect, s.name, s.value)) = doc.pairs := by
  have hpreamble : (doc.preamble.map fun f => ((f.text, none) : Line)).filterMap Prod.snd = [] := by
    rw [List.filterMap_map, List.filterMap_eq_nil_iff]
    exact fun _ _ => rfl
  have hpart : ∀ s : Part, s.lines.filterMap Prod.snd = s.body.filterMap s.pair? := by
    intro s
    have hline : Prod.snd ∘ s.line = s.pair? := by
      funext item
      cases item <;> rfl
    rw [Part.lines, List.filterMap_cons_none rfl, List.filterMap_map, hline]
  rw [calls_lines, Document.lines, Document.pairs, List.filterMap_append, hpreamble,
    List.nil_append, List.filterMap_flatMap]
  simp only [hpart]

/-! ## The run over a document -/

theorem leading_zero {text : Bytes} (h : ∀ c, text.head? = some c → isspace c = false) :
    leading text = 0 := by
  unfold leading
  cases hs : stripped text with
  | nil => rfl
  | cons c rest =>
    obtain ⟨more, hmore⟩ := List.rdropWhile_prefix isspace text
    have hhead := h c (by rw [← hmore, ← stripped, hs]; rfl)
    simp [hhead]

theorem kind_of_plain {lineno : ℕ} {prev_name text : Bytes} (hmark : marked lineno text = 0) :
    kind_of lineno prev_name text =
      line_kind (0 < leading text) prev_name (trimmed text) := by
  simp [kind_of, hmark]

def written (line : Line) : Bytes := line.1 ++ [newline]

theorem c_string_line {text : Bytes} (h : OneLine text) :
    c_string (text ++ [newline]) = text ++ [newline] := by
  apply c_string_of_clean
  rw [List.mem_append]
  rintro (h0 | h0)
  · exact h.2 h0
  · exact absurd h0 (by decide)

theorem marked_later {lineno : ℕ} (h : lineno ≠ 1) (text : Bytes) : marked lineno text = 0 :=
  if_neg fun hfirst => h hfirst.1

theorem header_leading (s : Part) : leading (s.header ++ [newline]) = 0 := by
  apply leading_zero
  intro c hc
  obtain rfl : 91 = c := Option.some.inj hc
  rfl

theorem pair_leading {p : Pair} (h : p.Valid) : leading (p.text ++ [newline]) = 0 := by
  apply leading_zero
  intro c hc
  have hne : p.name ≠ [] := List.ne_nil_of_length_pos h.name_length.1
  rw [Pair.text, List.append_assoc, List.append_assoc, List.head?_append_of_ne_nil _ hne] at hc
  exact h.name_tight.1 c hc

def Understood (st : IniState) (lineno : ℕ) (texts : List Bytes) (settings : List Setting) : Prop :=
  settings_before st lineno texts = settings ∧ first_malformed st lineno texts = none

theorem understood_cons {st : IniState} {lineno : ℕ} {text : Bytes} {texts : List Bytes}
    {kind : LineKind} {settings : List Setting}
    (hkind : kind_of (lineno + 1) st.prev_name (c_string text) = kind) (hgood : kind ≠ .malformed)
    (hrest : Understood (next_state st kind) (lineno + 1) texts settings) :
    Understood st lineno (text :: texts) ((call_of st (lineno + 1) kind).toList ++ settings) := by
  obtain ⟨hsettings, hnone⟩ := hrest
  subst hkind
  constructor
  · rw [settings_before, if_neg hgood, hsettings]
  · rw [first_malformed, if_neg hgood, hnone]

theorem header_state {st : IniState} {s : Part} (h : s.Valid) :
    ∀ name, some s.name = some name → (next_state st (.header s.name)).sect = name := by
  intro name hsome
  exact (List.take_of_length_le h.name_length).trans (Option.some.inj hsome)

theorem understood_laid {sect : Option Bytes} {lines : List Line} (hlaid : Laid sect lines)
    (hone : ∀ line ∈ lines, OneLine line.1) (st : IniState)
    (hst : ∀ name, sect = some name → st.sect = name) {lineno : ℕ} (hpos : 0 < lineno) :
    Understood st lineno (lines.map written) (calls (lineno + 1) lines) := by
  induction hlaid generalizing st lineno with
  | nil => exact ⟨rfl, rfl⟩
  | @filler sect f rest h hrest ih =>
    have hplain := @kind_of_plain (lineno + 1) st.prev_name _
      (marked_later (by omega) (f.text ++ [newline]))
    have hkind : kind_of (lineno + 1) st.prev_name (c_string (f.text ++ [newline])) = .skip := by
      rw [c_string_line (hone _ List.mem_cons_self), hplain, filler_kind h]
    have hread := ih (fun line hline => hone line (List.mem_cons_of_mem _ hline)) st hst
      (Nat.succ_pos lineno)
    exact understood_cons hkind (by decide) hread
  | @header sect s rest h hrest ih =>
    have hplain := @kind_of_plain (lineno + 1) st.prev_name _
      (marked_later (by omega) (s.header ++ [newline]))
    have hkind : kind_of (lineno + 1) st.prev_name (c_string (s.header ++ [newline])) =
        .header s.name := by
      rw [c_string_line (hone _ List.mem_cons_self), hplain, header_leading,
        decide_eq_false (Nat.lt_irrefl 0), header_kind h (Or.inr rfl)]
    have hread := ih (fun line hline => hone line (List.mem_cons_of_mem _ hline))
      (next_state st (.header s.name)) (header_state h) (Nat.succ_pos lineno)
    exact understood_cons hkind (by simp) hread
  | @pair sect p rest h hrest ih =>
    obtain ⟨current, prev_name⟩ := st
    obtain rfl : current = sect := hst sect rfl
    have hplain := @kind_of_plain (lineno + 1) prev_name _
      (marked_later (by omega) (p.text ++ [newline]))
    have hkind : kind_of (lineno + 1) prev_name (c_string (p.text ++ [newline])) =
        .pair p.name p.value := by
      rw [c_string_line (hone _ List.mem_cons_self), hplain, pair_leading h,
        decide_eq_false (Nat.lt_irrefl 0), pair_kind h]
    have hread := ih (fun line hline => hone line (List.mem_cons_of_mem _ hline))
      (next_state ⟨current, prev_name⟩ (.pair p.name p.value)) hst (Nat.succ_pos lineno)
    exact @understood_cons ⟨current, prev_name⟩ lineno _ _ _ _ hkind (by simp) hread

/-- The UTF-8 byte order mark. -/
def mark : Bytes := [0xEF, 0xBB, 0xBF]

def print (bom : Bytes) (doc : Document) : Bytes :=
  bom ++ doc.lines.flatMap fun line => line.1 ++ [newline]

theorem marked_first {bom text : Bytes} (hbom : bom = [] ∨ bom = mark)
    (hhead : ∀ c, text.head? = some c → c ≠ 0xEF) : marked 1 (bom ++ text) = bom.length := by
  rcases hbom with rfl | rfl
  · apply if_neg
    rintro ⟨-, more, htext⟩
    rw [List.nil_append] at htext
    exact hhead 0xEF (by rw [← htext]; rfl) rfl
  · exact if_pos ⟨rfl, List.prefix_append _ _⟩

theorem kind_of_first {bom text : Bytes} (hbom : bom = [] ∨ bom = mark)
    (hhead : ∀ c, text.head? = some c → c ≠ 0xEF) :
    kind_of 1 [] (bom ++ text) =
      line_kind (0 < bom.length + leading text) [] (trimmed text) := by
  simp only [kind_of, marked_first hbom hhead, List.drop_left]

theorem filler_head {f : Filler} (h : f.Valid) :
    ∀ c, (f.text ++ [newline]).head? = some c → c ≠ 0xEF := by
  have hspace : ∀ c, isspace c = true → c ≠ 0xEF := by
    rintro c hc rfl
    cases hc
  intro c hc
  cases f with
  | blank blanks =>
    cases blanks with
    | nil =>
      obtain rfl : newline = c := Option.some.inj hc
      decide
    | cons b blanks =>
      obtain rfl : b = c := Option.some.inj hc
      exact hspace b (h b List.mem_cons_self)
  | comment blanks m text =>
    cases blanks with
    | nil =>
      obtain rfl : m = c := Option.some.inj hc
      rcases h.2 with rfl | rfl <;> decide
    | cons b blanks =>
      obtain rfl : b = c := Option.some.inj hc
      exact hspace b (h.1 b List.mem_cons_self)

theorem c_string_first {bom text : Bytes} (hbom : bom = [] ∨ bom = mark) (h : OneLine text) :
    c_string (bom ++ (text ++ [newline])) = bom ++ (text ++ [newline]) := by
  have hclean : 0 ∉ bom := by rcases hbom with rfl | rfl <;> decide
  have hline := c_string_line h
  apply c_string_of_clean
  rw [List.mem_append]
  rintro (h0 | h0)
  · exact hclean h0
  · rw [← hline] at h0
    exact c_string_clean _ h0

theorem understood_document {bom : Bytes} (hbom : bom = [] ∨ bom = mark) {line : Line}
    {rest : List Line} (hlaid : Laid none (line :: rest))
    (hone : ∀ l ∈ line :: rest, OneLine l.1) :
    Understood ⟨[], []⟩ 0 ((bom ++ written line) :: rest.map written) (calls 1 (line :: rest)) := by
  have hrest : ∀ l ∈ rest, OneLine l.1 := fun l hl => hone l (List.mem_cons_of_mem line hl)
  have hfirst := c_string_first hbom (hone line List.mem_cons_self)
  cases hlaid with
  | @filler sect f rest h hlaid =>
    have hkind : kind_of 1 [] (c_string (bom ++ (f.text ++ [newline]))) = .skip := by
      rw [hfirst, kind_of_first hbom (filler_head h), filler_kind h]
    have hread := understood_laid hlaid hrest ⟨[], []⟩ (fun _ hname => nomatch hname) Nat.one_pos
    exact @understood_cons ⟨[], []⟩ 0 _ _ _ _ hkind (by decide) hread
  | @header sect s rest h hlaid =>
    have hhead : ∀ c, (s.header ++ [newline]).head? = some c → c ≠ 0xEF := by
      intro c hc
      obtain rfl : 91 = c := Option.some.inj hc
      decide
    have hkind : kind_of 1 [] (c_string (bom ++ (s.header ++ [newline]))) = .header s.name := by
      rw [hfirst, kind_of_first hbom hhead, header_kind h (Or.inl rfl)]
    have hread := understood_laid hlaid hrest (next_state ⟨[], []⟩ (.header s.name))
      (header_state h) Nat.one_pos
    exact @understood_cons ⟨[], []⟩ 0 _ _ _ _ hkind (by simp) hread

theorem fgets_lines_print {doc : Document} {bom : Bytes} (hbom : bom = [] ∨ bom = mark)
    {line : Line} {rest : List Line} (hlines : doc.lines = line :: rest)
    (hone : ∀ l ∈ doc.lines, OneLine l.1) (hfit : ∀ l ∈ doc.lines, l.1.length ≤ 198)
    (hfirst : bom.length + line.1.length ≤ 198) :
    fgets_lines (print bom doc) =
      (bom ++ (line.1 ++ [newline])) :: rest.map fun l => l.1 ++ [newline] := by
  have hmark : newline ∉ bom := by rcases hbom with rfl | rfl <;> decide
  have htext : print bom doc =
      ((bom ++ line.1) :: rest.map Prod.fst).flatMap (· ++ [newline]) := by
    rw [print, hlines, List.flatMap_cons, List.flatMap_cons, List.flatMap_map]
    simp
  rw [hlines] at hone hfit
  have hclean : ∀ text ∈ (bom ++ line.1) :: rest.map Prod.fst, newline ∉ text := by
    intro text htext
    rcases List.mem_cons.mp htext with rfl | hmem
    · rw [List.mem_append]
      rintro (h | h)
      · exact hmark h
      · exact (hone line List.mem_cons_self).1 h
    · obtain ⟨l, hl, rfl⟩ := List.mem_map.mp hmem
      exact (hone l (List.mem_cons_of_mem line hl)).1
  have hroom : ∀ text ∈ (bom ++ line.1) :: rest.map Prod.fst, text.length < INI_MAX_LINE - 1 := by
    intro text htext
    rcases List.mem_cons.mp htext with rfl | hmem
    · rw [List.length_append]
      exact Nat.lt_succ_of_le hfirst
    · obtain ⟨l, hl, rfl⟩ := List.mem_map.mp hmem
      exact Nat.lt_succ_of_le (hfit l (List.mem_cons_of_mem line hl))
  have hread := LineReader.lines_written _ hclean hroom []
  rw [LineReader.lines_nil, List.append_nil, List.append_nil, List.map_cons, List.map_map,
    List.append_assoc] at hread
  rw [fgets_lines, htext]
  exact hread

theorem understood_print {doc : Document} (hdoc : doc.Valid) {bom : Bytes}
    (hbom : bom = [] ∨ bom = mark) (hfit : ∀ line ∈ doc.lines, line.1.length ≤ 198)
    (hfirst : ∀ line, doc.lines.head? = some line → bom.length + line.1.length ≤ 198) :
    Understood ⟨[], []⟩ 0 (fgets_lines (print bom doc)) (calls 1 doc.lines) := by
  cases hlines : doc.lines with
  | nil =>
    have hprint : print bom doc = bom := by rw [print, hlines]; exact List.append_nil bom
    rw [hprint]
    rcases hbom with rfl | rfl
    · exact ⟨rfl, rfl⟩
    · have hread : fgets_lines mark = [mark] := by decide
      have hkind : kind_of 1 [] (c_string mark) = .skip := by decide
      rw [hread]
      exact @understood_cons ⟨[], []⟩ 0 _ _ _ _ hkind (by decide) ⟨rfl, rfl⟩
  | cons line rest =>
    have hlaid := laid_document hdoc
    have hone := hdoc.one_line
    rw [fgets_lines_print hbom hlines hone hfit (hfirst line (by rw [hlines]; rfl))]
    rw [hlines] at hlaid hone
    exact understood_document hbom hlaid hone

theorem ini_parse_print {doc : Document} (hdoc : doc.Valid) {bom : Bytes}
    (hbom : bom = [] ∨ bom = mark) (hfit : ∀ line ∈ doc.lines, line.1.length ≤ 198)
    (hfirst : ∀ line, doc.lines.head? = some line → bom.length + line.1.length ≤ 198)
    (haccept : Accepting handler) (user : σ) :
    ini_parse_stream handler user (fgets_lines (print bom doc)) =
        ((load_each handler user (calls 1 doc.lines)).map fun user => (user, 0)) ∧
      (calls 1 doc.lines).map (fun s => (s.sect, s.name, s.value)) = doc.pairs := by
  obtain ⟨hsettings, hnone⟩ := understood_print hdoc hbom hfit hfirst
  constructor
  · rw [ini_parse_stream, ini_lines_calls haccept, hsettings, hnone]
    rfl
  · exact calls_pairs doc 1

theorem record_accepting : Accepting record := by
  intro user sect name value lineno user' result hcall
  obtain ⟨-, rfl⟩ := Prod.mk.inj (Except.ok.inj hcall)
  decide

theorem commentFree_of_notMem {text : Bytes} (h : 59 ∉ text) : CommentFree text := by
  rintro w - hwithin
  exact h (hwithin.subset (List.mem_cons_of_mem w List.mem_cons_self))

/-- `name = Demo ; shown in the title` -/
def name_pair : Pair where
  name := bytes "name"
  before := bytes " "
  sep := 61
  after := bytes " "
  value := bytes "Demo"
  blanks := bytes "\t"
  comment := some (bytes " shown in the title")

def sample : Document where
  preamble := [.comment [] 35 (bytes " settings"), .blank []]
  parts := [⟨bytes "app", [], [.inr name_pair, .inl (.comment (bytes "  ") 59 [])]⟩]

theorem name_pair_valid : name_pair.Valid where
  name_length := by decide
  name_tight := ⟨fun c hc => by cases hc; rfl, fun c hc => by cases hc; rfl⟩
  name_comment := commentFree_of_notMem (by decide)
  name_sep := by decide
  name_head := fun c hc => by cases hc; decide
  before_blank := blank_of_all (by decide)
  sep_mark := Or.inl rfl
  after_blank := blank_of_all (by decide)
  value_tight := ⟨fun c hc => by cases hc; rfl, fun c hc => by cases hc; rfl⟩
  value_comment := commentFree_of_notMem (by decide)
  value_head := fun c hc => by cases hc; decide
  blanks_blank := blank_of_all (by decide)
  comment_blanks := by decide

theorem sample_valid : sample.Valid where
  preamble := by
    intro f hf
    rcases List.mem_pair.mp hf with rfl | rfl
    · exact ⟨fun c hc => absurd hc List.not_mem_nil, Or.inr rfl⟩
    · exact fun c hc => absurd hc List.not_mem_nil
  parts := by
    intro s hs
    obtain rfl := List.mem_singleton.mp hs
    exact {
      name_length := by decide
      name_close := by decide
      name_comment := commentFree_of_notMem (by decide)
      filler := by
        intro f hf
        rcases List.mem_pair.mp hf with h | h
        · cases h
        · obtain rfl := Sum.inl.inj h
          exact ⟨blank_of_all (by decide), Or.inl rfl⟩
      pair := by
        intro p hp
        rcases List.mem_pair.mp hp with h | h
        · obtain rfl := Sum.inr.inj h
          exact name_pair_valid
        · cases h }
  one_line := by unfold OneLine; decide

theorem ini_parse_print_sample :
    ini_parse_stream record [] (fgets_lines (print mark sample)) =
      .ok ([⟨bytes "app", bytes "name", bytes "Demo", 4⟩], 0) := by
  have hfirst : ∀ line, sample.lines.head? = some line → mark.length + line.1.length ≤ 198 := by
    intro line hline
    obtain rfl := Option.some.inj hline
    decide
  rw [(ini_parse_print sample_valid (Or.inr rfl) (by decide) hfirst record_accepting []).1]
  rfl

def long_comment : Document where
  preamble := [.comment [] 35 (List.replicate 197 120)]
  parts := [⟨bytes "app", [], [.inr name_pair]⟩]

theorem long_comment_valid : long_comment.Valid where
  preamble := by
    intro f hf
    obtain rfl := List.mem_singleton.mp hf
    exact ⟨fun c hc => absurd hc List.not_mem_nil, Or.inr rfl⟩
  parts := by
    intro s hs
    obtain rfl := List.mem_singleton.mp hs
    exact {
      name_length := by decide
      name_close := by decide
      name_comment := commentFree_of_notMem (by decide)
      filler := by
        intro f hf
        cases List.mem_singleton.mp hf
      pair := by
        intro p hp
        obtain rfl := Sum.inr.inj (List.mem_singleton.mp hp)
        exact name_pair_valid }
  one_line := by unfold OneLine; decide

/-- Behind a byte order mark that line does not fit the buffer any more. Its end is taken for a
line without a separator. -/
theorem marked_comment_cut :
    ¬∀ (τ : Type) (load : Loader τ) (user : τ) (doc : Document) (bom : Bytes), doc.Valid →
      (bom = [] ∨ bom = mark) → (∀ line ∈ doc.lines, line.1.length ≤ 198) → Accepting load →
      ini_parse_stream load user (fgets_lines (print bom doc)) =
          ((load_each load user (calls 1 doc.lines)).map fun user => (user, 0)) ∧
        (calls 1 doc.lines).map (fun s => (s.sect, s.name, s.value)) = doc.pairs := by
  intro hall
  have hparse := (hall (List Setting) record [] long_comment mark long_comment_valid (Or.inr rfl)
    (by decide +kernel) record_accepting).1
  have hrun : ini_parse_stream record [] (fgets_lines (print mark long_comment)) = .ok ([], 2) := by
    decide +kernel
  rw [hrun] at hparse
  exact absurd hparse (by decide +kernel)

end IniRoundTrip
