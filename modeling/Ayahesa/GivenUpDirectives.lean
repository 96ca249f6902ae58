import Ayahesa.ViewStatements
import Ayahesa.ViewTemplates

/-! # Directives that a pass gives up

A pass puts a NUL over the closing bracket before it knows whether it can go on, and none of
its exits puts the bracket back. -/
namespace GivenUpDirectives

open CMemory CompatStrings ByteSearch KoreApi KoreBuffer LoopIteration ViewPasses
open ViewDirectives ViewStatements ViewTemplates

variable {K : Kore} {S : Symbols} {b b' : KoreBuf} {X arg Y : Bytes}

inductive Pass where
  | process_template
  | process_include
  | process_statement

def Pass.token : Pass → Bytes
  | .process_template => TOk_TEMPLATE
  | .process_include => TOk_INCLUDE
  | .process_statement => TOk_IF

/-- The pass ends at a directive with this argument. The other two say so by leaving their
loop; the template pass has none, so its exits are told apart by what they depend on. -/
def Pass.GivesUp (K : Kore) (S : Symbols) (arg : Bytes) (b b' : KoreBuf) : Pass → Prop
  | .process_template => ViewPasses.process_template K S b = .ok b' ∧
      (arg = [] ∨ include_asset S (trimmed arg) = none ∨ Free TOk_ENDTEMPLATE b.data)
  | .process_include => process_include_body K S b = .ok (.done b')
  | .process_statement => process_statement_body K S b = .ok (.done b')

/-! ## The exits -/

theorem empty_argument {token : Bytes} (h : LookedAt token b.data X [] Y) :
    b.data = X ++ (token ++ TOk_CLOSE :: Y) := h.split

theorem template_exit (h : LookedAt TOk_TEMPLATE b.data X arg Y)
    (hgive : Pass.process_template.GivesUp K S arg b b') :
    b'.data = if arg = [] then b.data else closedAt X TOk_TEMPLATE arg Y := by
  obtain ⟨hrun, hcause⟩ := hgive
  by_cases hne : arg = []
  · subst hne
    rw [process_template_empty K h.leftmost (empty_argument h)] at hrun
    rw [if_pos rfl, Except.ok.inj hrun]
  · rw [if_neg hne]
    rw [process_template_at K h.plain hne h.leftmost h.split] at hrun
    cases hasset : include_asset S (trimmed arg) with
    | none =>
      rw [hasset] at hrun
      rw [← Except.ok.inj hrun]
      rfl
    | some asset =>
      have hfree : Free TOk_ENDTEMPLATE b.data := by
        rcases hcause with hcause | hcause | hcause
        · exact absurd hcause hne
        · exact absurd (hasset.symm.trans hcause) (Option.some_ne_none asset)
        · exact hcause
      rw [h.split] at hfree
      have hnone : find TOk_ENDTEMPLATE (templateClosed X arg Y) = none :=
        (find_eq_none_iff TOk_ENDTEMPLATE_token.head.ne_nil).mpr
          (free_closedAt TOk_ENDTEMPLATE_token hfree)
      simp only [hasset, template_body_eq, hnone, bind, Except.bind, pure, Except.pure] at hrun
      rw [← Except.ok.inj hrun]
      rfl

theorem include_exit (h : LookedAt TOk_INCLUDE b.data X arg Y)
    (hgive : Pass.process_include.GivesUp K S arg b b') :
    b'.data = if arg = [] then b.data else closedAt X TOk_INCLUDE arg Y := by
  have hrun : process_include_body K S b = .ok (.done b') := hgive
  rw [process_include_body] at hrun
  by_cases hne : arg = []
  · subst hne
    rw [substitute_empty K TOk_INCLUDE_token h.leftmost (empty_argument h)] at hrun
    rw [if_pos rfl, Step.done.inj (Except.ok.inj hrun)]
  · rw [if_neg hne]
    rw [named_text_at K _ TOk_INCLUDE_token h.plain hne h.leftmost h.split] at hrun
    cases hasset : include_asset S (trimmed arg) with
    | none =>
      rw [hasset] at hrun
      rw [← Step.done.inj (Except.ok.inj hrun)]
      rfl
    | some str =>
      rw [hasset] at hrun
      cases Except.ok.inj hrun

/-- The second half of a round ends the pass only when it misses a mark of the ELSE part. -/
theorem finish_exit {N : Bytes} {len : ℕ} {middle : Option ℕ}
    (h : finish_statement K ⟨N, len⟩ middle = .ok (.done b')) : b'.data = N := by
  cases middle with
  | none =>
    obtain ⟨n, hn⟩ := finish_none K ⟨N, len⟩
    cases Except.ok.inj (hn.symm.trans h)
  | some i =>
    cases hp : find TOk_ELSE N with
    | none =>
      rw [finish_unmarked i (Or.inl hp)] at h
      rw [← Step.done.inj (Except.ok.inj h)]
    | some p =>
      cases hq : find TOk_ENDIF N with
      | none =>
        rw [finish_unmarked i (Or.inr hq)] at h
        rw [← Step.done.inj (Except.ok.inj h)]
      | some q =>
        by_cases hpq : p ≤ q
        · obtain ⟨n, hn⟩ := finish_some K len i hp hq hpq
          cases Except.ok.inj (hn.symm.trans h)
        · exact absurd h (finish_disordered i hp hq (by omega) _)

theorem headCut_shorter (res : ℤ) (X arg Y : Bytes) (k : ℕ) :
    (headCut res X arg Y k).length < (closedAt X TOk_IF arg Y).length := by
  have hpos : 0 < TOk_IF.length := TOk_IF_token.head.length_pos
  unfold headCut
  split
  · simp only [closedAt, after, List.length_append, List.length_drop, List.length_cons,
      wiped_length]
    omega
  · simp only [closedAt, List.length_append, List.length_cons, wiped_length]
    omega

/-- The statement pass either stops with its argument closed or after it cut the head out. -/
theorem statement_exit (h : LookedAt TOk_IF b.data X arg Y) (hne : arg ≠ [])
    (hgive : Pass.process_statement.GivesUp K S arg b b') :
    b'.data = closedAt X TOk_IF arg Y ∨
      ∃ k, b'.data = headCut (get_vvar S (trimmed arg)) X arg Y k := by
  have hrun : process_statement_body K S b = .ok (.done b') := hgive
  rw [body_at K S h.plain hne h.leftmost h.split] at hrun
  cases he : endAt X arg Y with
  | none =>
    simp only [he] at hrun
    split at hrun
    · exact Or.inl (by rw [← Step.done.inj (Except.ok.inj hrun)]; rfl)
    · cases hrun
  | some e =>
    cases hm : elseAt arg Y e with
    | none =>
      simp only [he, hm] at hrun
      split at hrun
      · split at hrun
        · exact Or.inl (by rw [← Step.done.inj (Except.ok.inj hrun)]; rfl)
        · exact Or.inr ⟨e, finish_exit hrun⟩
      · cases hrun
    | some m =>
      simp only [he, hm] at hrun
      split at hrun
      · exact Or.inl (by rw [← Step.done.inj (Except.ok.inj hrun)]; rfl)
      · exact Or.inr ⟨m, finish_exit hrun⟩

theorem statement_exit_empty (h : LookedAt TOk_IF b.data X [] Y)
    (hgive : Pass.process_statement.GivesUp K S [] b b') : b'.data = b.data := by
  have hrun : process_statement_body K S b = .ok (.done b') := hgive
  rw [body_empty K S h.leftmost (empty_argument h)] at hrun
  rw [← Step.done.inj (Except.ok.inj hrun)]

/-- A directive that a pass gives up keeps its bytes exactly when nothing stands between its
brackets. -/
theorem given_up_iff (K : Kore) (S : Symbols) (pass : Pass) (b b' : KoreBuf) {X arg Y : Bytes}
    (h : LookedAt pass.token b.data X arg Y) (hgive : pass.GivesUp K S arg b b') :
    b'.data = b.data ↔ arg = [] := by
  have hclosed := h.closedAt_ne
  cases pass with
  | process_template =>
    rw [template_exit h hgive]
    by_cases hne : arg = []
    · simp only [hne, if_true]
    · simp only [hne, if_false, iff_false]
      exact hclosed
  | process_include =>
    rw [include_exit h hgive]
    by_cases hne : arg = []
    · simp only [hne, if_true]
    · simp only [hne, if_false, iff_false]
      exact hclosed
  | process_statement =>
    by_cases hne : arg = []
    · subst hne
      simp only [statement_exit_empty h hgive]
    · simp only [hne, iff_false]
      rcases statement_exit h hne hgive with hb | ⟨k, hb⟩
      · rw [hb]
        exact hclosed
      · intro heq
        have hlt := headCut_shorter (get_vvar S (trimmed arg)) X arg Y k
        have hlen := closedAt_length X TOk_IF arg Y
        have hsplit : b.data = X ++ (TOk_IF ++ (arg ++ TOk_CLOSE :: Y)) := h.split
        rw [← hb, heq, hsplit] at hlt
        omega

def unlinked : Symbols where
  data _ := none
  vfunc _ := none
  vvar _ := none

theorem given_up_variable :
    (⟨bytes "<p>@if(v" ++ 0 :: bytes "yes@endif</p>", 22⟩ : KoreBuf).data =
      (kore_buf_of (bytes "<p>@if(v)yes@endif</p>")).data ↔ bytes "v" = [] :=
  given_up_iff reference unlinked .process_statement
    (kore_buf_of (bytes "<p>@if(v)yes@endif</p>")) _
    (X := bytes "<p>") (Y := bytes "yes@endif</p>") ⟨by decide, by decide, by decide, by decide⟩
    (by unfold Pass.GivesUp; decide +kernel)

/-- The bracket of an include directive without its asset is lost. -/
theorem given_up_changes : ¬ ∀ (K : Kore) (S : Symbols) (pass : Pass) (b b' : KoreBuf)
    (X arg Y : Bytes), LookedAt pass.token b.data X arg Y → arg ≠ [] → pass.GivesUp K S arg b b' →
    b'.data = b.data := by
  intro hall
  have hsame := hall reference unlinked .process_include (kore_buf_of (bytes "@include(x)"))
    ⟨bytes "@include(x" ++ [0], 11⟩ [] (bytes "x") []
    ⟨by decide, by decide, by decide, by decide⟩ (by decide)
    (by unfold Pass.GivesUp; decide +kernel)
  exact absurd hsame (by decide)

end GivenUpDirectives
