import Ayahesa.ViewMemorySafety
import Ayahesa.ViewTermination

/-! # Views that extend a layout

A view names its layout and gives a body. The body is read from a place that counts the blanks
in front of the name twice, so every such blank costs it a byte. -/
namespace TemplateInheritance

open CMemory CompatStrings ByteSearch KoreApi KoreBuffer ViewPasses ViewDirectives
open ViewTemplates ViewMemorySafety ViewTermination

/-- A template directive with its end mark; nothing in front of it looks like either. -/
structure View where
  front : Bytes
  before : Bytes
  name : Bytes
  behind : Bytes
  body : Bytes
  rest : Bytes
  front_free : Free TOk_TEMPLATE front
  front_unended : Free TOk_ENDTEMPLATE front
  before_blank : ∀ c ∈ before, isspace c = true
  behind_blank : ∀ c ∈ behind, isspace c = true
  name_plain : Plain name
  name_trimmed : trimmed name = name
  name_ne_nil : name ≠ []
  body_unended : Free TOk_ENDTEMPLATE body
  body_clean : 0 ∉ body

namespace View

def argument (V : View) : Bytes := V.before ++ (V.name ++ V.behind)

def source (V : View) : Bytes :=
  V.front ++ (TOk_TEMPLATE ++ (V.argument ++ TOk_CLOSE ::
    (V.body ++ (TOk_ENDTEMPLATE ++ V.rest))))

/-- What stands behind the body when its length is taken. The NUL goes over the first end mark
of the buffer, which a name can hold as well. -/
def ending (V : View) : Bytes :=
  if Free TOk_ENDTEMPLATE V.name then 0 :: (TOk_ENDTEMPLATE.tail ++ V.rest)
  else TOk_ENDTEMPLATE ++ V.rest

def reading (V : View) : Bytes := (V.body ++ V.ending).drop V.before.length

def Aligned (V : View) : Prop := V.body ++ [0] <+: V.reading

instance (V : View) : Decidable V.Aligned :=
  inferInstanceAs (Decidable (V.body ++ [0] <+: V.reading))

end View

section Blanks

theorem not_mem_blanks {c : UInt8} {s : Bytes} (h : ∀ x ∈ s, isspace x = true)
    (hc : isspace c = false) : c ∉ s := by
  intro hmem
  rw [h c hmem] at hc
  cases hc

theorem free_between_blanks {mark before name behind : Bytes} (hm : IsToken mark)
    (hmark : mark.all (fun c => !isspace c) = true) (hbefore : ∀ c ∈ before, isspace c = true)
    (hbehind : ∀ c ∈ behind, isspace c = true) (hname : Free mark name) :
    Free mark (before ++ (name ++ behind)) := by
  have hclear : ∀ c ∈ mark, isspace c = false := by simpa using hmark
  obtain ⟨c, cs, rfl, _⟩ := id hm.head
  have hne := hm.head.ne_nil
  have hc := hclear c List.mem_cons_self
  have hbefore' := not_mem_blanks hbefore hc
  have hbehind' := not_mem_blanks hbehind hc
  have hcut : Cut (c :: cs) name behind := by
    cases behind with
    | nil =>
      intro i hi hlt ho
      have hb := ho.bound hne
      rw [List.append_nil] at hb
      omega
    | cons z zs =>
      apply cut_of_separator (z := z) ?_ rfl
      intro hz
      have hz' := hbehind z List.mem_cons_self
      rw [hclear z hz] at hz'
      cases hz'
  have hright := (hcut.free_iff hne).mpr ⟨hname, free_of_not_mem hbehind'⟩
  exact ((cut_of_not_mem hbefore').free_iff hne).mpr ⟨free_of_not_mem hbefore', hright⟩

end Blanks

namespace View

theorem argument_ne_nil (V : View) : V.argument ≠ [] := by
  simp [argument, V.name_ne_nil]

theorem argument_plain (V : View) : Plain V.argument := by
  have h0 : isspace 0 = false := by decide
  have hc : isspace TOk_CLOSE = false := by decide
  refine ⟨?_, ?_⟩
  · simp only [argument, List.mem_append, not_or]
    exact ⟨not_mem_blanks V.before_blank hc, V.name_plain.open_, not_mem_blanks V.behind_blank hc⟩
  · simp only [argument, List.mem_append, not_or]
    exact ⟨not_mem_blanks V.before_blank h0, V.name_plain.clean, not_mem_blanks V.behind_blank h0⟩

theorem argument_leading (V : View) : leading V.argument = V.before.length :=
  leading_padded V.before_blank V.behind_blank V.name_trimmed V.name_ne_nil

theorem argument_trimmed (V : View) : trimmed V.argument = V.name :=
  trimmed_padded V.before_blank V.behind_blank V.name_trimmed V.name_ne_nil

def closed (V : View) : Bytes :=
  templateClosed V.front V.argument (V.body ++ (TOk_ENDTEMPLATE ++ V.rest))

def start (V : View) : ℕ := bodyStart V.front V.argument

theorem closed_drop (V : View) :
    V.closed.drop V.start = (V.body ++ (TOk_ENDTEMPLATE ++ V.rest)).drop V.before.length := by
  rw [closed, start, drop_bodyStart, argument_leading]

/-- With the end mark in the name, the NUL is put in front of the body. -/
theorem ended_in_name (V : View) (h : ¬ Free TOk_ENDTEMPLATE V.name) :
    ∃ stop, find TOk_ENDTEMPLATE V.closed = some stop ∧
      (V.closed.set stop 0).drop V.start = V.reading := by
  have hne := TOk_ENDTEMPLATE_token.head.ne_nil
  obtain ⟨rest, hrest⟩ : ∃ rest, V.closed =
      (V.front ++ (TOk_TEMPLATE ++ (V.before ++ V.name))) ++ rest := by
    refine ⟨List.replicate V.behind.length 0 ++ 0 :: (V.body ++ (TOk_ENDTEMPLATE ++ V.rest)), ?_⟩
    rw [closed, templateClosed, argument, wiped_padded V.behind_blank V.name_trimmed V.name_ne_nil]
    simp only [List.append_assoc]
  cases hf : find TOk_ENDTEMPLATE (V.front ++ (TOk_TEMPLATE ++ (V.before ++ V.name))) with
  | none =>
    have hfree := (find_eq_none_iff hne).mp hf
    exact absurd (hfree.of_isInfix ⟨V.front ++ (TOk_TEMPLATE ++ V.before), [], by simp⟩) h
  | some stop =>
    have hb := find_bound hne hf
    refine ⟨stop, by rw [hrest]; exact find_append_left rest hne hf, ?_⟩
    have hlt : stop < V.start := by
      simp only [List.length_append] at hb
      simp only [start, bodyStart, argument, List.length_append]
      have := TOk_ENDTEMPLATE_token.head.length_pos
      omega
    rw [List.drop_set_of_lt hlt, closed_drop, reading, ending, if_neg h]

theorem ended_behind_body (V : View) (h : Free TOk_ENDTEMPLATE V.name) :
    ∃ stop, find TOk_ENDTEMPLATE V.closed = some stop ∧
      (V.closed.set stop 0).drop V.start = V.reading := by
  have ht := TOk_ENDTEMPLATE_token
  have hne := ht.head.ne_nil
  have harg : Free TOk_ENDTEMPLATE V.argument :=
    free_between_blanks ht (by decide) V.before_blank V.behind_blank h
  have hbehind : Free TOk_ENDTEMPLATE (V.argument ++ TOk_CLOSE :: V.body) := by
    have hcut : Cut TOk_ENDTEMPLATE V.argument (TOk_CLOSE :: V.body) :=
      cut_of_separator ht.open_ rfl
    have hcut' : Cut TOk_ENDTEMPLATE ([] ++ [TOk_CLOSE]) V.body := cut_of_end (by decide)
    exact (hcut.free_iff hne).mpr ⟨harg, (hcut'.free_iff hne).mpr ⟨by decide, V.body_unended⟩⟩
  have hfree : Free TOk_ENDTEMPLATE (closedAt V.front TOk_TEMPLATE V.argument V.body) := by
    apply free_closedAt ht
    have hcut : Cut TOk_ENDTEMPLATE V.front
        (TOk_TEMPLATE ++ (V.argument ++ TOk_CLOSE :: V.body)) := cut_of_head ht.head rfl
    refine (hcut.free_iff hne).mpr ⟨V.front_unended, ?_⟩
    exact free_word_append ht.head TOk_TEMPLATE_token.head rfl (by decide) (by decide) hbehind
  have hsplit : V.closed = closedAt V.front TOk_TEMPLATE V.argument V.body ++
      (TOk_ENDTEMPLATE ++ V.rest) := by
    simp [closed, templateClosed, closedAt]
  refine ⟨_, by rw [hsplit]; exact find_at V.rest ht.head hfree, ?_⟩
  have hset : V.closed.set (closedAt V.front TOk_TEMPLATE V.argument V.body).length 0 =
      templateClosed V.front V.argument (V.body ++ 0 :: (TOk_ENDTEMPLATE.tail ++ V.rest)) := by
    have hmark : TOk_ENDTEMPLATE = 64 :: TOk_ENDTEMPLATE.tail := by decide
    rw [hsplit, List.set_append_right _ _ (Nat.le_refl _), Nat.sub_self, hmark, List.cons_append,
      List.set_cons_zero]
    simp [templateClosed, closedAt]
  rw [hset, start, drop_bodyStart, argument_leading, reading, ending, if_pos h]

theorem template_body_view (V : View) (K : Kore) (len : ℕ) :
    ∃ d, template_body K (⟨V.closed, len⟩ : KoreBuf) V.start = (do
      let body ← cstr V.reading 0
      return (⟨d, len⟩, some body)) := by
  obtain ⟨stop, hstop, hread⟩ : ∃ stop, find TOk_ENDTEMPLATE V.closed = some stop ∧
      (V.closed.set stop 0).drop V.start = V.reading := by
    by_cases h : Free TOk_ENDTEMPLATE V.name
    · exact V.ended_behind_body h
    · exact V.ended_in_name h
  refine ⟨V.closed.set stop 0, ?_⟩
  rw [template_body_eq]
  simp only [hstop]
  rw [cstr_drop, hread]

theorem process_template_view (V : View) (K : Kore) {S : Symbols} {L : Bytes}
    (hL : include_asset S V.name = some L) (len : ℕ) :
    process_template K S (⟨V.source, len⟩ : KoreBuf) = (do
      let body ← cstr V.reading 0
      aya_buf_replace_first_string K (kore_buf_of L) yield_mark body) := by
  obtain ⟨d, hbody⟩ := V.template_body_view K len
  rw [process_template_at (b := ⟨V.source, len⟩) K V.argument_plain V.argument_ne_nil V.front_free
    rfl, argument_trimmed, hL]
  have hrun : template_body K (⟨templateClosed V.front V.argument
      (V.body ++ (TOk_ENDTEMPLATE ++ V.rest)), len⟩ : KoreBuf) (bodyStart V.front V.argument) = _ :=
    hbody
  simp only [hrun]
  cases cstr V.reading 0 with
  | error e => rfl
  | ok body => rfl

/-- With a name that is no end mark, blanks in front of it are what misaligns the reading of a
body at least as long as they are. -/
theorem aligned_iff (V : View) (hname : Free TOk_ENDTEMPLATE V.name)
    (hshort : V.before.length ≤ V.body.length) : V.Aligned ↔ V.before = [] := by
  have hreading : V.reading =
      V.body.drop V.before.length ++ 0 :: (TOk_ENDTEMPLATE.tail ++ V.rest) := by
    rw [reading, ending, if_pos hname, List.drop_append_of_le_length hshort]
  constructor
  · rintro ⟨t, ht⟩
    by_contra hne
    have hpos := List.length_pos_of_ne_nil hne
    have hget := congrArg (fun l : Bytes => l[V.body.length - V.before.length]?) ht
    have hlen : (V.body.drop V.before.length).length = V.body.length - V.before.length :=
      List.length_drop
    simp only [hreading, List.append_assoc] at hget
    rw [List.getElem?_append_left (by omega), List.getElem?_append_right (by omega), hlen,
      Nat.sub_self, List.getElem?_cons_zero] at hget
    exact V.body_clean (List.mem_of_getElem? hget)
  · intro hnil
    refine ⟨TOk_ENDTEMPLATE.tail ++ V.rest, ?_⟩
    rw [hreading, hnil]
    simp

end View

theorem cstr_start_iff {s t : Bytes} (h0 : 0 ∉ t) : cstr s 0 = .ok t ↔ t ++ [0] <+: s := by
  constructor
  · intro h
    obtain ⟨right, hs, _⟩ := cstr_ok h
    rw [List.drop_zero] at hs
    exact ⟨right, by rw [hs]; simp⟩
  · rintro ⟨right, rfl⟩
    rw [List.append_assoc]
    exact cstr_start right h0

/-- The layout takes the place of the view, with the body where it first yields. -/
def Inherits (K : Kore) (S : Symbols) (V : View) (L : Bytes) : Prop :=
  ∀ len, ∃ n, process_template K S (⟨V.source, len⟩ : KoreBuf) =
    .ok ⟨first_replaced yield_mark V.body L, n⟩

theorem inherits_reading (K : Kore) {S : Symbols} {V : View} {L : Bytes}
    (hL : include_asset S V.name = some L) :
    Inherits K S V L ↔ ∃ t, cstr V.reading 0 = .ok t ∧ (Free yield_mark L ∨ t = V.body) := by
  constructor
  · intro h
    obtain ⟨n, hn⟩ := h 0
    rw [V.process_template_view K hL] at hn
    obtain ⟨t, ht, hn⟩ := bind_ok hn
    obtain ⟨m, hm⟩ := replace_first_string_eq K (kore_buf_of L) t yield_mark_ne_nil
    have hsame := congrArg KoreBuf.data (Except.ok.inj (hm.symm.trans hn))
    exact ⟨t, ht, (first_replaced_inj yield_mark_ne_nil).mp hsame⟩
  · rintro ⟨t, ht, hsame⟩ len
    obtain ⟨m, hm⟩ := replace_first_string_eq K (kore_buf_of L) t yield_mark_ne_nil
    refine ⟨m, ?_⟩
    rw [V.process_template_view K hL, ht, ← (first_replaced_inj yield_mark_ne_nil).mpr hsame]
    exact hm

/-- The view inherits exactly when its body is read from where it starts; a layout that yields
nowhere only needs the reading to end. -/
theorem template_inheritance_iff (K : Kore) (S : Symbols) (V : View) {L : Bytes}
    (hL : include_asset S V.name = some L) :
    (Inherits K S V L ↔ V.Aligned ∨ (Free yield_mark L ∧ 0 ∈ V.reading)) ∧
    (Free TOk_ENDTEMPLATE V.name → V.before.length ≤ V.body.length →
      (V.Aligned ↔ V.before = [])) := by
  refine ⟨?_, V.aligned_iff⟩
  rw [inherits_reading K hL]
  constructor
  · rintro ⟨t, ht, hfree | rfl⟩
    · have hend := (cstr_runs_iff V.reading 0).mp ⟨t, ht⟩
      exact Or.inr ⟨hfree, hend⟩
    · exact Or.inl ((cstr_start_iff V.body_clean).mp ht)
  · rintro (haligned | ⟨hfree, hend⟩)
    · exact ⟨V.body, (cstr_start_iff V.body_clean).mpr haligned, Or.inr rfl⟩
    · obtain ⟨t, ht⟩ := (cstr_runs_iff V.reading 0).mpr hend
      exact ⟨t, ht, Or.inl hfree⟩

/-- `<p>@template(<blanks>a)<b>@endtemplate</p>` -/
def greeting (blanks : ℕ) : View where
  front := bytes "<p>"
  before := List.replicate blanks 32
  name := bytes "a"
  behind := []
  body := bytes "<b>"
  rest := bytes "</p>"
  front_free := by decide
  front_unended := by decide
  before_blank := by
    intro c hc
    rw [List.eq_of_mem_replicate hc]
    rfl
  behind_blank := by simp
  name_plain := ⟨by decide, by decide⟩
  name_trimmed := by decide
  name_ne_nil := by decide
  body_unended := by decide
  body_clean := by decide

/-- Without blanks the body arrives whole. -/
theorem template_inheritance_plain :
    Inherits reference (oneAsset (bytes "<i>@yield</i>")) (greeting 0) (bytes "<i>@yield</i>") :=
  (template_inheritance_iff reference (oneAsset (bytes "<i>@yield</i>")) (greeting 0)
    (by decide +kernel)).1.mpr (Or.inl (by decide))

/-- One blank in front of the name costs the body its first byte. -/
theorem body_loses_byte : ¬ ∀ (K : Kore) (S : Symbols) (V : View) (L : Bytes),
    include_asset S V.name = some L → Inherits K S V L := by
  intro hall
  obtain ⟨n, hn⟩ := hall reference (oneAsset (bytes "<i>@yield</i>")) (greeting 1)
    (bytes "<i>@yield</i>") (by decide +kernel) 0
  have hrun : (process_template reference (oneAsset (bytes "<i>@yield</i>"))
      ⟨bytes "<p>@template( a)<b>@endtemplate</p>", 0⟩).map KoreBuf.data =
        .ok (bytes "<i>b></i>") := by decide +kernel
  have hsource : (greeting 1).source = bytes "<p>@template( a)<b>@endtemplate</p>" := by
    decide +kernel
  rw [hsource] at hn
  rw [hn] at hrun
  have hbody : first_replaced yield_mark (greeting 1).body (bytes "<i>@yield</i>") =
      bytes "<i>b></i>" := Except.ok.inj hrun
  exact absurd hbody (by decide +kernel)

end TemplateInheritance
