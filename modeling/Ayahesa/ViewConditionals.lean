import Ayahesa.AllocatedBuffer
import Ayahesa.ViewStatements

/-! # What conditional blocks mean

A page of texts and blocks is rewritten block by block. A block whose condition is zero loses
its ELSE part too, a block too close to the end of the text is not found at all, and the search
for an ELSE mark may leave the memory of the buffer, so a page means what it says only under
conditions. -/
namespace ViewConditionals

open CMemory CompatStrings ByteSearch KoreApi KoreBuffer AllocatedBuffer LoopIteration ViewPasses
open ViewDirectives ViewStatements

def isident (c : UInt8) : Bool :=
  (65 ≤ c && c ≤ 90) || (97 ≤ c && c ≤ 122) || (48 ≤ c && c ≤ 57) || c = 95

/-- None of the three statement tokens stands in the text. -/
structure Formless (t : Bytes) : Prop where
  if_free : Free TOk_IF t
  else_free : Free TOk_ELSE t
  endif_free : Free TOk_ENDIF t

structure Wordless (t : Bytes) : Prop extends Formless t where
  clean : 0 ∉ t

/-- A text and the block behind it; the condition names an `int` global that is not negative. -/
structure Block (S : Symbols) where
  text : Bytes
  before : Bytes
  name : Bytes
  behind : Bytes
  yes : Bytes
  no : Option Bytes
  text_wordless : Wordless text
  before_blank : ∀ c ∈ before, isspace c = true
  name_ident : ∀ c ∈ name, isident c = true
  name_ne_nil : name ≠ []
  behind_blank : ∀ c ∈ behind, isspace c = true
  yes_wordless : Wordless yes
  no_wordless : ∀ t ∈ no, Wordless t
  value : ∃ v, S.vvar name = some v ∧ 0 ≤ v

structure Page (S : Symbols) where
  blocks : List (Block S)
  tail : Bytes
  tail_wordless : Wordless tail

variable {K : Kore} {S : Symbols}

namespace Block

def arg (B : Block S) : Bytes := B.before ++ (B.name ++ B.behind)

def otherwise (B : Block S) : Bytes :=
  match B.no with
  | none => []
  | some t => TOk_ELSE ++ t

/-- What stands behind the bracket, up to the end mark. -/
def branches (B : Block S) : Bytes := B.yes ++ B.otherwise

def source (B : Block S) : Bytes :=
  B.text ++ (TOk_IF ++ (B.arg ++ TOk_CLOSE :: (B.branches ++ TOk_ENDIF)))

def condition (B : Block S) : ℤ := get_vvar S B.name

def meaning (B : Block S) : Bytes :=
  B.text ++ (if B.condition ≠ 0 then B.yes else B.no.getD [])

/-- What the pass leaves behind the text; the NUL was the closing bracket. -/
def kept (B : Block S) : Bytes := if B.condition ≠ 0 then 0 :: B.yes else []

def residue (B : Block S) : Bytes := B.text ++ B.kept

def shown (B : Block S) : Bytes := B.text ++ (if B.condition ≠ 0 then B.yes else [])

theorem condition_nonneg (B : Block S) : 0 ≤ B.condition := by
  obtain ⟨v, hv, h0⟩ := B.value
  simpa [condition, get_vvar, hv] using h0

theorem isspace_of_ident {c : UInt8} (h : isident c = true) : isspace c = false := by
  simp only [isident, isspace, Bool.or_eq_true, Bool.and_eq_true, decide_eq_true_eq,
    Bool.or_eq_false_iff, Bool.and_eq_false_iff, decide_eq_false_iff_not, UInt8.le_iff_toNat_le,
    ← UInt8.toNat_inj, UInt8.reduceToNat] at h ⊢
  omega

theorem ident_safe {c : UInt8} (h : isident c = true) : c ≠ TOk_CLOSE ∧ c ≠ 0 ∧ c ≠ 64 := by
  refine ⟨?_, ?_, ?_⟩ <;>
  · rintro rfl
    exact absurd h (by decide)

theorem isspace_safe {c : UInt8} (h : isspace c = true) : c ≠ TOk_CLOSE ∧ c ≠ 0 ∧ c ≠ 64 := by
  refine ⟨?_, ?_, ?_⟩ <;>
  · rintro rfl
    exact absurd h (by decide)

theorem name_blankless (B : Block S) : ∀ c ∈ B.name, isspace c = false :=
  fun c hc => isspace_of_ident (B.name_ident c hc)

theorem arg_leading (B : Block S) : leading B.arg = B.before.length :=
  leading_padded B.before_blank B.behind_blank (trimmed_of_blankless B.name_blankless) B.name_ne_nil

theorem arg_trimmed (B : Block S) : trimmed B.arg = B.name :=
  trimmed_padded B.before_blank B.behind_blank (trimmed_of_blankless B.name_blankless) B.name_ne_nil

theorem arg_wiped (B : Block S) :
    wiped B.arg = B.before ++ (B.name ++ List.replicate B.behind.length 0) :=
  wiped_padded B.behind_blank (trimmed_of_blankless B.name_blankless) B.name_ne_nil

private theorem arg_safe (B : Block S) : ∀ c ∈ B.arg, c ≠ TOk_CLOSE ∧ c ≠ 0 ∧ c ≠ 64 := by
  intro c hc
  simp only [arg, List.mem_append] at hc
  rcases hc with hc | hc | hc
  · exact isspace_safe (B.before_blank c hc)
  · exact ident_safe (B.name_ident c hc)
  · exact isspace_safe (B.behind_blank c hc)

theorem arg_plain (B : Block S) : Plain B.arg :=
  ⟨fun h => (B.arg_safe _ h).1 rfl, fun h => (B.arg_safe _ h).2.1 rfl⟩

theorem arg_ne_nil (B : Block S) : B.arg ≠ [] := by
  simp [arg, B.name_ne_nil]

/-- From the name on: the name, NULs, the branches, and what follows them. -/
def front (B : Block S) : Bytes := B.name ++ List.replicate (B.behind.length + 1) 0

theorem after_eq (B : Block S) (Y : Bytes) : after B.arg Y = B.front ++ Y := by
  rw [after, B.arg_leading, B.arg_wiped, List.drop_left, front, List.replicate_succ']
  simp

theorem front_unmarked (B : Block S) : 64 ∉ B.front := by
  simp only [front, List.mem_append, List.mem_replicate, not_or]
  exact ⟨fun h => (ident_safe (B.name_ident _ h)).2.2 rfl, fun h => absurd h.2 (by decide)⟩

theorem front_cut {token : Bytes} (B : Block S) (right : Bytes) (ht : token.head? = some 64) :
    Cut token B.front right ∧ Free token B.front := by
  obtain ⟨c, cs, rfl⟩ : ∃ c cs, token = c :: cs := by
    cases token with
    | nil => cases ht
    | cons c cs => exact ⟨c, cs, rfl⟩
  obtain rfl : c = 64 := Option.some.inj ht
  exact ⟨cut_of_not_mem B.front_unmarked, free_of_not_mem B.front_unmarked⟩

theorem find_behind_front {token right : Bytes} (B : Block S) (ht : token.head? = some 64) :
    find token (B.front ++ right) = (find token right).map (B.front.length + ·) := by
  obtain ⟨hcut, hfree⟩ := B.front_cut right ht
  exact find_append_of_free hcut (by rintro rfl; cases ht) hfree

private theorem endif_free_else {t : Bytes} (h : Free TOk_ENDIF t) :
    Free TOk_ENDIF (TOk_ELSE ++ t) :=
  free_word_append TOk_ENDIF_token.head TOk_ELSE_token.head rfl (by decide) (by decide) h

theorem branches_endif_free (B : Block S) : Free TOk_ENDIF B.branches := by
  cases hno : B.no with
  | none => simpa [branches, otherwise, hno] using B.yes_wordless.endif_free
  | some t =>
    have ht := (B.no_wordless t hno).endif_free
    simp only [branches, otherwise, hno]
    have hcut : Cut TOk_ENDIF B.yes (TOk_ELSE ++ t) := cut_of_head TOk_ENDIF_token.head rfl
    exact (hcut.free_iff TOk_ENDIF_token.head.ne_nil).mpr
      ⟨B.yes_wordless.endif_free, endif_free_else ht⟩

theorem front_length (B : Block S) : B.front.length = B.name.length + B.behind.length + 1 := by
  simp [front, Nat.add_assoc]

theorem arg_length (B : Block S) :
    B.arg.length = B.before.length + B.name.length + B.behind.length := by
  simp [arg, Nat.add_assoc]

section Search

variable {X R slack : Bytes}

theorem end_found (B : Block S) (Z : Bytes) (w : ℕ) :
    find TOk_ENDIF ((after B.arg (B.branches ++ (TOk_ENDIF ++ Z))).take w) =
      if B.front.length + B.branches.length + TOk_ENDIF.length ≤ w then
        some (B.front.length + B.branches.length) else none := by
  have hfind : find TOk_ENDIF (B.front ++ (B.branches ++ (TOk_ENDIF ++ Z))) =
      some (B.front.length + B.branches.length) := by
    rw [B.find_behind_front rfl, find_at Z TOk_ENDIF_token.head B.branches_endif_free]
    rfl
  rw [B.after_eq, find_take TOk_ENDIF_token.head.ne_nil hfind]

theorem elseAt_some (B : Block S) (Z : Bytes) {t : Bytes} (hno : B.no = some t) :
    elseAt B.arg (B.branches ++ (TOk_ENDIF ++ Z)) (B.front.length + B.branches.length) =
      some (B.front.length + B.yes.length) := by
  have hbranches : B.branches = B.yes ++ (TOk_ELSE ++ t) := by simp [branches, otherwise, hno]
  have hfind : find TOk_ELSE (B.front ++ (B.branches ++ (TOk_ENDIF ++ Z))) =
      some (B.front.length + B.yes.length) := by
    rw [B.find_behind_front rfl, hbranches, List.append_assoc, List.append_assoc,
      find_at _ TOk_ELSE_token.head B.yes_wordless.else_free]
    rfl
  have hE : TOk_ELSE.length = 5 := rfl
  rw [elseAt, B.after_eq, find_take TOk_ELSE_token.head.ne_nil hfind, if_pos]
  simp only [elseWindow, B.arg_leading, hbranches, List.length_append, hE]
  omega

theorem elseAt_none (B : Block S) (Z : Bytes) (hno : B.no = none)
    (hfree : Free TOk_ELSE ((TOk_ENDIF ++ Z).take (TOk_IF.length + B.before.length))) :
    elseAt B.arg (B.branches ++ (TOk_ENDIF ++ Z)) (B.front.length + B.branches.length) =
      none := by
  have hbranches : B.branches = B.yes := by simp [branches, otherwise, hno]
  have hwindow : elseWindow B.arg (B.front.length + B.yes.length) =
      (B.front ++ B.yes).length + (TOk_IF.length + B.before.length) := by
    simp only [elseWindow, B.arg_leading, List.length_append]
    omega
  have hcut : Cut TOk_ELSE B.yes ((TOk_ENDIF ++ Z).take (TOk_IF.length + B.before.length)) :=
    cut_of_head TOk_ELSE_token.head (by
      have hIF : TOk_IF.length = 3 + 1 := rfl
      rw [hIF, Nat.add_right_comm]
      rfl)
  have hmark : TOk_ELSE.head? = some 64 := rfl
  obtain ⟨hfront, hffree⟩ :=
    B.front_cut (B.yes ++ (TOk_ENDIF ++ Z).take (TOk_IF.length + B.before.length)) hmark
  rw [elseAt, B.after_eq, hbranches, hwindow, ← List.append_assoc, List.take_length_add_append,
    List.append_assoc, find_eq_none_iff TOk_ELSE_token.head.ne_nil]
  exact (hfront.free_iff TOk_ELSE_token.head.ne_nil).mpr
    ⟨hffree, (hcut.free_iff TOk_ELSE_token.head.ne_nil).mpr ⟨B.yes_wordless.else_free, hfree⟩⟩

/-- Where the block's own marks stand behind its name: that of the else part, if it has one, else
that of the end. -/
def stop (B : Block S) : ℕ :=
  B.front.length + (if B.no = none then B.branches.length else B.yes.length)

theorem stop_le (B : Block S) (Z : Bytes) :
    B.stop ≤ (after B.arg (B.branches ++ (TOk_ENDIF ++ Z))).length := by
  have hbranches : B.yes.length ≤ B.branches.length := by simp [branches]
  simp only [B.after_eq, stop, List.length_append]
  split <;> omega

/-- The block's own marks are the first ones once its head is cut out. -/
theorem headRest_block (B : Block S) (R : Bytes) :
    headRest B.condition B.arg (B.branches ++ (TOk_ENDIF ++ R)) B.stop =
      B.kept ++ (B.otherwise ++ (TOk_ENDIF ++ R)) := by
  by_cases hc : B.condition = 0
  · have hdrop : (B.front ++ (B.branches ++ (TOk_ENDIF ++ R))).drop B.stop =
        B.otherwise ++ (TOk_ENDIF ++ R) := by
      rw [stop, ← List.drop_drop, List.drop_left]
      cases hno : B.no with
      | none =>
        simp only [branches, otherwise, hno, if_true, List.append_nil, List.drop_left,
          List.nil_append]
      | some t =>
        simp only [branches, reduceCtorEq, if_false, List.append_assoc, List.drop_left]
    simp only [headRest, kept, hc, if_true, B.after_eq, hdrop, ne_eq, not_true, if_false,
      List.nil_append]
  · simp only [headRest, kept, hc, if_false, ne_eq, not_false_eq_true, if_true, List.cons_append,
      branches, List.append_assoc]

/-- After the cut of the head the rest of the round takes out the marks and the else part. The
last cut is that of the end mark. -/
theorem finish_block (K : Kore) (B : Block S) {c : AllocBuf} {H : Bytes} (i : ℕ)
    (hc : Holds c (H ++ (B.otherwise ++ (TOk_ENDIF ++ R))) slack)
    (helse : B.no ≠ none → Free TOk_ELSE H) (hendif : Free TOk_ENDIF H) :
    ∃ c' junk, finish_statement K c (B.no.map fun _ => i) = .ok (.next c') ∧
      Holds c' (H ++ R) junk ∧ junk.length = TOk_ENDIF.length := by
  have hlast : find TOk_ENDIF (H ++ (TOk_ENDIF ++ R)) = some H.length :=
    find_at R TOk_ENDIF_token.head hendif
  cases hno : B.no with
  | none =>
    rw [otherwise, hno, List.nil_append] at hc
    obtain ⟨c', junk, hrun, hc', hlen⟩ :=
      replace_first_string_holds K [] TOk_ENDIF_token.head.ne_nil hc hlast
    refine ⟨c', junk, ?_, hc', hlen⟩
    simp only [finish_statement, Option.map_none, hrun, bind, Except.bind, pure, Except.pure]
  | some t =>
    have ho : B.otherwise = TOk_ELSE ++ t := by simp [otherwise, hno]
    have hp : find TOk_ELSE (H ++ (B.otherwise ++ (TOk_ENDIF ++ R))) = some H.length := by
      rw [ho, List.append_assoc]
      exact find_at _ TOk_ELSE_token.head (helse (by simp [hno]))
    have hfree : Free TOk_ENDIF (H ++ B.otherwise) := by
      have hcut : Cut TOk_ENDIF H B.otherwise := cut_of_head TOk_ENDIF_token.head (by rw [ho]; rfl)
      refine (hcut.free_iff TOk_ENDIF_token.head.ne_nil).mpr ⟨hendif, ?_⟩
      rw [ho]
      exact endif_free_else (B.no_wordless t hno).endif_free
    have hq : find TOk_ENDIF (H ++ (B.otherwise ++ (TOk_ENDIF ++ R))) =
        some (H ++ B.otherwise).length := by
      rw [← List.append_assoc]
      exact find_at R TOk_ENDIF_token.head hfree
    have hmarks := find_marks_holds K hc TOk_ELSE_token.head.ne_nil TOk_ENDIF_token.head.ne_nil
    rw [hp, hq] at hmarks
    have hdiff : (((H ++ B.otherwise).length : ℕ) : ℤ) - H.length = B.otherwise.length := by
      rw [List.length_append]
      omega
    obtain ⟨d, _, hcut, hd, _⟩ := replace_string_holds [] hc
    obtain ⟨c', junk, hrun, hc', hlen⟩ :=
      replace_first_string_holds K [] TOk_ENDIF_token.head.ne_nil hd hlast
    refine ⟨c', junk, ?_, hc', hlen⟩
    simp only [finish_statement, Option.map_some, else_marks, hmarks, Option.bind_some, hdiff, hcut,
      hrun, bind, Except.bind, pure, Except.pure]

theorem source_split (B : Block S) (X R : Bytes) : X ++ (B.source ++ R) = (X ++ B.text) ++
    (TOk_IF ++ (B.arg ++ TOk_CLOSE :: (B.branches ++ (TOk_ENDIF ++ R)))) := by
  simp [source]

/-- The end mark is inside the window of its search. -/
def Reached (B : Block S) (X R : Bytes) : Prop :=
  B.arg.length ≤ (X ++ B.text).length + B.before.length + R.length

/-- The search for an else mark that is not there stays in the memory of the buffer, in which
`room` bytes stand behind the text. -/
def Inside (B : Block S) (R : Bytes) (room : ℕ) : Prop :=
  B.no = none → TOk_IF.length + B.before.length ≤ (TOk_ENDIF ++ R).length + room

/-- Whatever these bytes are, it does not see the else mark of a later block or one in them. -/
def Alone (B : Block S) (R : Bytes) (room : ℕ) : Prop :=
  B.no = none → ∀ slack : Bytes, slack.length = room →
    Free TOk_ELSE ((TOk_ENDIF ++ (R ++ slack)).take (TOk_IF.length + B.before.length))

/-- Up to six blanks in front of the name make no window long enough. -/
theorem alone_of_short (B : Block S) (R : Bytes) (room : ℕ) (h : B.before.length ≤ 6) :
    B.Alone R room := by
  intro _ slack _
  have hlong : (TOk_ENDIF ++ (R ++ slack)).take 10 = TOk_ENDIF ++ (R ++ slack).take 4 := by
    have hten : 10 = TOk_ENDIF.length + 4 := rfl
    rw [hten, List.take_length_add_append]
  have hshort : Free TOk_ELSE ((R ++ slack).take 4) := by
    intro i ho
    have hbound := ho.bound TOk_ELSE_token.head.ne_nil
    have hE : TOk_ELSE.length = 5 := rfl
    rw [List.length_take] at hbound
    omega
  have hfree : Free TOk_ELSE ((TOk_ENDIF ++ (R ++ slack)).take 10) := by
    rw [hlong]
    exact free_word_append TOk_ELSE_token.head TOk_ENDIF_token.head rfl (by decide) (by decide)
      hshort
  have hI : TOk_IF.length = 4 := rfl
  exact hfree.of_isInfix (List.take_prefix_take_left (by omega)).isInfix

/-- The marks of the block are the first ones, although pieces of text were joined in front. -/
structure Apart (B : Block S) (X : Bytes) : Prop where
  if_free : Free TOk_IF (X ++ B.text)
  endif_free : Free TOk_ENDIF (X ++ B.residue)
  else_free : B.no ≠ none → Free TOk_ELSE (X ++ B.residue)

theorem end_window_iff (B : Block S) (X R : Bytes) :
    B.front.length + B.branches.length + TOk_ENDIF.length ≤
      endWindow (X ++ B.text) (B.branches ++ (TOk_ENDIF ++ R)) ↔ B.Reached X R := by
  simp only [endWindow, Reached, B.front_length, B.arg_length, List.length_append]
  omega

theorem else_window_iff (B : Block S) (R slack : Bytes) (hno : B.no = none) :
    elseWindow B.arg (B.front.length + B.branches.length) ≤
      (after B.arg (B.branches ++ (TOk_ENDIF ++ (R ++ slack)))).length ↔
        B.Inside R slack.length := by
  simp only [elseWindow, B.after_eq, B.arg_leading, Inside, hno, List.length_append, true_imp_iff]
  omega

section Round

variable {c : AllocBuf}

def closed (B : Block S) (X Z : Bytes) : Bytes :=
  closedData (X ++ B.text) B.arg (B.branches ++ (TOk_ENDIF ++ Z))

theorem round_found (K : Kore) (B : Block S) (hc : Holds c (X ++ (B.source ++ R)) slack)
    (hif : Free TOk_IF (X ++ B.text)) (hreach : B.Reached X R) (halone : B.Alone R slack.length) :
    process_statement_body K S c =
      if elseWindow B.arg (B.front.length + B.branches.length) ≤
          (after B.arg (B.branches ++ (TOk_ENDIF ++ (R ++ slack)))).length ∨ B.no ≠ none then
        (Buffer.replace_string (Buffer.written c (B.closed X (R ++ slack))) (X ++ B.text).length
          (headLength B.condition (X ++ B.text) B.arg B.stop) []).bind fun buffer =>
            finish_statement K buffer (B.no.map fun _ => namePos (X ++ B.text) B.arg + B.stop)
      else .error .outOfBounds := by
  have hcond : get_vvar S (trimmed B.arg) = B.condition := by rw [B.arg_trimmed, condition]
  rw [B.source_split] at hc
  rw [body_holds K S B.arg_plain B.arg_ne_nil hif hc]
  simp only [List.append_assoc, B.end_found, hcond, not_lt.mpr B.condition_nonneg, if_false]
  rw [if_pos ((B.end_window_iff X R).mpr hreach)]
  cases hno : B.no with
  | none =>
    have hnone := B.elseAt_none (R ++ slack) hno (halone hno slack rfl)
    simp only [hnone, ne_eq, not_true, or_false, Option.map_none, stop, hno, if_true, closed]
  | some t =>
    have hsome := B.elseAt_some (R ++ slack) hno
    simp only [hsome, ne_eq, reduceCtorEq, not_false_eq_true, or_true, if_true, Option.map_some,
      stop, hno, if_false, closed]

theorem round_next (K : Kore) (B : Block S) (hc : Holds c (X ++ (B.source ++ R)) slack)
    (hapart : B.Apart X) (hreach : B.Reached X R) (hinside : B.Inside R slack.length)
    (halone : B.Alone R slack.length) :
    ∃ c' junk, process_statement_body K S c = .ok (.next c') ∧
      Holds c' ((X ++ B.residue) ++ R) junk ∧ junk.length = TOk_ENDIF.length := by
  have hwindow : elseWindow B.arg (B.front.length + B.branches.length) ≤
      (after B.arg (B.branches ++ (TOk_ENDIF ++ (R ++ slack)))).length ∨ B.no ≠ none := by
    by_cases hno : B.no = none
    · exact Or.inl ((B.else_window_iff R slack hno).mpr hinside)
    · exact Or.inr hno
  obtain ⟨mid, hsplit, hmid⟩ := closedData_head B.condition (X ++ B.text) B.arg _ (B.stop_le R)
  rw [B.headRest_block] at hsplit
  have hwritten : Holds (Buffer.written c (B.closed X (R ++ slack)))
      ((X ++ B.text) ++ (mid ++ (B.kept ++ (B.otherwise ++ (TOk_ENDIF ++ R))))) slack := by
    rw [← hsplit]
    refine ⟨?_, ?_⟩
    · rw [LawfulBuffer.region_written]
      simp [closed, closedData]
    · rw [LawfulBuffer.offset_written, hc.offset, B.source_split]
      · simp only [closedData, List.length_append, List.length_cons, wiped_length]
      · rw [hc.region, B.source_split]
        simp only [closed, closedData, List.length_append, List.length_cons, wiped_length]
        omega
  obtain ⟨d, _, hcut, hd, _⟩ := replace_string_holds [] hwritten
  rw [List.nil_append, ← List.append_assoc, List.append_assoc X, ← residue] at hd
  obtain ⟨c', junk, hrun, hc', hlen⟩ := B.finish_block K
    (namePos (X ++ B.text) B.arg + B.stop) hd hapart.else_free hapart.endif_free
  refine ⟨c', junk, ?_, hc', hlen⟩
  rw [B.round_found K hc hapart.if_free hreach halone, if_pos hwindow, ← hmid, hcut]
  exact hrun

theorem round_missed (K : Kore) (B : Block S) (hc : Holds c (X ++ (B.source ++ R)) slack)
    (hif : Free TOk_IF (X ++ B.text)) (hreach : ¬ B.Reached X R) :
    ∃ c', process_statement_body K S c = .ok (.done c') ∧ Buffer.used c' = B.closed X R := by
  have hwindow : endWindow (X ++ B.text) (B.branches ++ (TOk_ENDIF ++ R)) ≤
      (after B.arg (B.branches ++ (TOk_ENDIF ++ (R ++ slack)))).length := by
    have harg := B.arg_length
    simp only [Reached, not_le] at hreach
    simp only [endWindow, B.after_eq, B.front_length, List.length_append] at hreach ⊢
    omega
  have hoffset : c.offset = (B.closed X R).length := by
    have hc := hc.offset
    rw [B.source_split] at hc
    refine hc.trans ?_
    simp only [closed, closedData, List.length_append, List.length_cons, wiped_length]
  have hsplit : B.closed X (R ++ slack) = B.closed X R ++ slack := by simp [closed, closedData]
  refine ⟨Buffer.written c (B.closed X (R ++ slack)), ?_, ?_⟩
  · rw [B.source_split] at hc
    rw [body_holds K S B.arg_plain B.arg_ne_nil hif hc]
    simp only [List.append_assoc, B.end_found]
    rw [if_neg (mt (B.end_window_iff X R).mp hreach)]
    simp only [hwindow, if_true, closed]
  · change (B.closed X (R ++ slack)).take c.offset = B.closed X R
    rw [hsplit, hoffset, List.take_left]

/-- A block without an else part too close to the end of the memory makes the second search leave
it. -/
theorem round_leaves (K : Kore) (B : Block S) (hc : Holds c (X ++ (B.source ++ R)) slack)
    (hif : Free TOk_IF (X ++ B.text)) (hreach : B.Reached X R) (halone : B.Alone R slack.length)
    (hinside : ¬ B.Inside R slack.length) : process_statement_body K S c = .error .outOfBounds := by
  have hno : B.no = none := by
    by_contra hne
    exact hinside fun h => absurd h hne
  rw [B.round_found K hc hif hreach halone, if_neg]
  rw [not_or, B.else_window_iff R slack hno]
  exact ⟨hinside, not_not.mpr hno⟩

end Round

end Search

theorem filter_clean {t : Bytes} (h : 0 ∉ t) : t.filter (· ≠ 0) = t := by
  apply List.filter_eq_self.mpr
  intro c hc
  simpa using fun h0 : c = 0 => h (h0 ▸ hc)

theorem filter_residue (B : Block S) : B.residue.filter (· ≠ 0) = B.shown := by
  rw [residue, List.filter_append, filter_clean B.text_wordless.clean, kept, shown]
  split
  · rw [List.filter_cons_of_neg (by decide), filter_clean B.yes_wordless.clean]
  · rfl

theorem shown_length_le (B : Block S) : B.shown.length ≤ B.meaning.length := by
  by_cases hc : B.condition = 0 <;> simp [shown, meaning, hc]

/-- Only an else part can be lost, so nothing is lost when nothing is shorter. -/
theorem shown_eq_meaning_iff (B : Block S) :
    B.shown.length = B.meaning.length ↔ (B.condition = 0 → B.no.getD [] = []) := by
  by_cases hc : B.condition = 0 <;> simp [shown, meaning, hc]

end Block

namespace Page

def source (P : Page S) : Bytes := P.blocks.flatMap Block.source ++ P.tail

def meaning (P : Page S) : Bytes := P.blocks.flatMap Block.meaning ++ P.tail

def passed (past : List (Block S)) : Bytes := past.flatMap Block.residue

def rest (P : Page S) (more : List (Block S)) : Bytes := more.flatMap Block.source ++ P.tail

def residue (P : Page S) : Bytes := passed P.blocks ++ P.tail

/-- In a buffer with these bytes behind the page the pass returns, and without the NULs its output
is what the page means. -/
def Rendered (K : Kore) (P : Page S) (slack : Bytes) (heap : ℕ → ℕ → UInt8) : Prop :=
  ∃ b', Returns (process_statement_body K S)
      (⟨P.source ++ slack, P.source.length, heap⟩ : AllocBuf) b' ∧
    (Buffer.used b').filter (· ≠ 0) = P.meaning

def Everywhere (P : Page S) (Q : List (Block S) → Block S → Bytes → Prop) : Prop :=
  ∀ past B more, P.blocks = past ++ B :: more → Q past B (P.rest more)

/-- How many bytes stand behind the text when the pass comes to a block: behind the first round
as many as the end mark had. -/
def room (n : ℕ) (past : List (Block S)) : ℕ := if past = [] then n else TOk_ENDIF.length

/-- The windows of both searches, which depend on the position of the block, are small enough for
the memory and large enough for the mark. -/
def WindowsFit (P : Page S) (n : ℕ) : Prop :=
  P.Everywhere fun past B R => B.Reached (passed past) R ∧ B.Inside R (room n past)

def ElseAlone (P : Page S) (n : ℕ) : Prop := P.Everywhere fun past B R => B.Alone R (room n past)

/-- No block meets a mark that the texts in front of it have formed. -/
def Seamless (P : Page S) : Prop := P.Everywhere fun past B _ => B.Apart (passed past)

/-- The search behind the last block finds no directive, or one that is given up as it is. -/
def Settled (P : Page S) : Prop :=
  ∀ X rest, P.residue = X ++ (TOk_IF ++ rest) → Free TOk_IF X → rest.head? = some TOk_CLOSE

/-- No else part that should be shown has anything to show. -/
def ElseEmpty (P : Page S) : Prop := ∀ B ∈ P.blocks, B.condition = 0 → B.no.getD [] = []

section Run

variable {P : Page S} {past more : List (Block S)} {B : Block S} {slack : Bytes}
  {heap : ℕ → ℕ → UInt8}

theorem rest_cons (P : Page S) (B : Block S) (more : List (Block S)) :
    P.rest (B :: more) = B.source ++ P.rest more := by
  simp [rest]

theorem passed_concat (past : List (Block S)) (B : Block S) :
    passed (past ++ [B]) = passed past ++ B.residue := by
  simp [passed]

theorem run_through (K : Kore) (hseams : P.Seamless) (halone : P.ElseAlone slack.length)
    (heap : ℕ → ℕ → UInt8) (past : List (Block S)) : ∀ more, P.blocks = past ++ more →
      (∀ q B r, P.blocks = q ++ B :: r → q.length < past.length →
        B.Reached (passed q) (P.rest r) ∧ B.Inside (P.rest r) (room slack.length q)) →
      ∃ b junk, Holds b (passed past ++ P.rest more) junk ∧
        junk.length = room slack.length past ∧
        ∀ b', Returns (process_statement_body K S)
            (⟨P.source ++ slack, P.source.length, heap⟩ : AllocBuf) b' ↔
          Returns (process_statement_body K S) b b' := by
  induction past using List.reverseRecOn with
  | nil =>
    intro more h _
    obtain rfl : P.blocks = more := h
    exact ⟨⟨P.source ++ slack, P.source.length, heap⟩, slack, ⟨rfl, rfl⟩, rfl, fun b' => Iff.rfl⟩
  | append_singleton past B ih =>
    intro more h hfit
    have hsplit : P.blocks = past ++ B :: more := by simpa using h
    obtain ⟨b, junk, hb, hlen, hreturns⟩ := ih (B :: more) hsplit fun q B' r hq hlt =>
      hfit q B' r hq (by rw [List.length_append]; omega)
    obtain ⟨hreach, hinside⟩ := hfit past B more hsplit (by simp)
    rw [rest_cons] at hb
    obtain ⟨c, junk', hround, hc, hlen'⟩ := B.round_next K hb (hseams past B more hsplit) hreach
      (hlen ▸ hinside) (hlen ▸ halone past B more hsplit)
    refine ⟨c, junk', ?_, ?_, fun b' => (hreturns b').trans (returns_of_next_iff hround)⟩
    · rw [passed_concat]
      exact hc
    · rw [hlen', room, if_neg (by simp)]

theorem returns_residue (K : Kore) (hseams : P.Seamless) (hsettled : P.Settled)
    (halone : P.ElseAlone slack.length) (hfit : P.WindowsFit slack.length)
    (heap : ℕ → ℕ → UInt8) :
    ∃ b, Returns (process_statement_body K S)
        (⟨P.source ++ slack, P.source.length, heap⟩ : AllocBuf) b ∧
      Buffer.used b = P.residue := by
  obtain ⟨b, junk, hb, -, hreturns⟩ := run_through K hseams halone heap P.blocks [] (by simp)
    fun q B r hq _ => hfit q B r hq
  replace hb : Holds b P.residue junk := hb
  refine ⟨b, (hreturns b).mpr (.of_done ?_), ?_⟩
  · rcases token_cases TOk_IF_token P.residue with hfree | ⟨X, rest, hsplit, hX⟩
    · have hp := parser_free_holds K TOk_IF_token hb hfree
      simp only [process_statement_body, find_statement, hp, bind, Except.bind, pure, Except.pure]
    · obtain ⟨Y, rfl⟩ : ∃ Y, rest = TOk_CLOSE :: Y := by
        have hhead := hsettled X rest hsplit hX
        cases rest with
        | nil => cases hhead
        | cons z Y => exact ⟨Y, by rw [Option.some.inj hhead]⟩
      have hp := parser_closed_holds K TOk_IF_token ⟨List.not_mem_nil, List.not_mem_nil⟩ hX
        (hsplit ▸ hb)
      have hsz : (matchAt X TOk_IF []).argumentsz = 0 := rfl
      simp only [process_statement_body, find_statement, hp, hsz, if_true, bind, Except.bind, pure,
        Except.pure]
  · have hdata : b.data = P.residue ++ junk := hb.region
    have hoffset : b.offset = P.residue.length := hb.offset
    change b.data.take b.offset = P.residue
    rw [hdata, hoffset, List.take_left]

/-- A pass that stops early leaves an end mark in its output. -/
theorem windows_fit_of_returns {b' : AllocBuf} (hseams : P.Seamless)
    (halone : P.ElseAlone slack.length)
    (hret : Returns (process_statement_body K S)
      (⟨P.source ++ slack, P.source.length, heap⟩ : AllocBuf) b')
    (hend : ¬ TOk_ENDIF <:+: Buffer.used b') : P.WindowsFit slack.length := by
  intro past
  -- on the number of blocks in front: the run gets to this block, so its round is known
  induction hk : past.length using Nat.strong_induction_on generalizing past with
  | h k ih =>
    intro B more hsplit
    obtain ⟨b, junk, hb, hlen, hreturns⟩ := run_through K hseams halone heap past (B :: more) hsplit
      fun q B' r hq hlt => ih q.length (hk ▸ hlt) q rfl B' r hq
    have hrun := (hreturns b').mp hret
    rw [rest_cons] at hb
    have hfree := (hseams past B more hsplit).if_free
    by_contra hnot
    by_cases hreach : B.Reached (passed past) (P.rest more)
    · have hinside : ¬ B.Inside (P.rest more) junk.length := fun h => hnot ⟨hreach, hlen ▸ h⟩
      have hround := B.round_leaves K hb hfree hreach (hlen ▸ halone past B more hsplit) hinside
      rcases hrun.cases with h | ⟨u, h, _⟩
      · rw [hround] at h
        cases h
      · rw [hround] at h
        cases h
    · obtain ⟨c, hround, hused⟩ := B.round_missed K hb hfree hreach
      rw [hrun.unique (.of_done hround), hused] at hend
      refine hend ⟨(passed past ++ B.text) ++ (TOk_IF ++ (wiped B.arg ++ 0 :: B.branches)),
        P.rest more, ?_⟩
      simp [Block.closed, closedData]

end Run

theorem filter_residue (P : Page S) :
    P.residue.filter (· ≠ 0) = P.blocks.flatMap Block.shown ++ P.tail := by
  rw [residue, List.filter_append, Block.filter_clean P.tail_wordless.clean, passed,
    List.filter_flatMap]
  simp only [Block.filter_residue]

theorem shown_length (blocks : List (Block S)) :
    (blocks.flatMap Block.shown).length ≤ (blocks.flatMap Block.meaning).length ∧
    ((blocks.flatMap Block.shown).length = (blocks.flatMap Block.meaning).length →
      ∀ B ∈ blocks, B.condition = 0 → B.no.getD [] = []) := by
  induction blocks with
  | nil => simp
  | cons B more ih =>
    obtain ⟨hle, heq⟩ := ih
    have hB := B.shown_length_le
    simp only [List.flatMap_cons, List.length_append]
    refine ⟨by omega, fun h => ?_⟩
    exact List.forall_mem_cons.mpr ⟨B.shown_eq_meaning_iff.mp (by omega), heq (by omega)⟩

theorem shown_eq_iff (P : Page S) :
    P.blocks.flatMap Block.shown ++ P.tail = P.meaning ↔ P.ElseEmpty := by
  constructor
  · intro h
    have hlen := congrArg List.length h
    simp only [meaning, List.length_append] at hlen
    exact (shown_length P.blocks).2 (by omega)
  · intro h
    rw [meaning]
    congr 1
    apply List.flatMap_congr
    intro B hB
    by_cases hc : B.condition = 0
    · simp [Block.shown, Block.meaning, hc, h B hB hc]
    · simp [Block.shown, Block.meaning, hc]

end Page

/-- The statement pass renders a page whose else parts are not needed and whose windows fit, as
long as no block meets a mark that was formed on the way; and it renders no other page unless a
text happens to look like what is left of a mark. -/
theorem statement_meaning (K : Kore) (S : Symbols) (P : Page S) (slack : Bytes)
    (heap : ℕ → ℕ → UInt8) :
    (P.ElseEmpty → P.WindowsFit slack.length → P.ElseAlone slack.length → P.Seamless → P.Settled →
      P.Rendered K slack heap) ∧
    (P.ElseAlone slack.length → P.Seamless → P.Settled → Free TOk_ENDIF P.meaning →
      P.Rendered K slack heap → P.ElseEmpty ∧ P.WindowsFit slack.length) := by
  constructor
  · intro hempty hfit halone hseams hsettled
    obtain ⟨b, hret, hused⟩ := Page.returns_residue K hseams hsettled halone hfit heap
    refine ⟨b, hret, ?_⟩
    rw [hused, P.filter_residue]
    exact (P.shown_eq_iff).mpr hempty
  · rintro halone hseams hsettled hmeaning ⟨b', hret, hb'⟩
    have hend : ¬ TOk_ENDIF <:+: Buffer.used b' := by
      intro hinfix
      apply hmeaning.not_isInfix
      rw [← hb', ← Block.filter_clean TOk_ENDIF_token.clean]
      exact hinfix.filter _
    have hfit := Page.windows_fit_of_returns hseams halone hret hend
    obtain ⟨b, hres, hused⟩ := Page.returns_residue K hseams hsettled halone hfit heap
    rw [hret.unique hres, hused, P.filter_residue] at hb'
    exact ⟨(P.shown_eq_iff).mp hb', hfit⟩

theorem Page.everywhere_pair {P : Page S} {A B : Block S}
    {Q : List (Block S) → Block S → Bytes → Prop} (hb : P.blocks = [A, B])
    (hA : Q [] A (P.rest [B])) (hB : Q [A] B (P.rest [])) : P.Everywhere Q := by
  intro past C more hsplit
  rw [hb] at hsplit
  cases past with
  | nil =>
    obtain ⟨rfl, rfl⟩ := List.cons.inj hsplit
    exact hA
  | cons D past =>
    obtain ⟨hD, htail⟩ := List.cons.inj hsplit
    cases past with
    | nil =>
      obtain ⟨hC, hmore⟩ := List.cons.inj htail
      rw [← hD, ← hC, ← hmore]
      exact hB
    | cons D past => simp at htail

/-- One global, `v`. -/
def flag (v : ℤ) : Symbols where
  data _ := none
  vfunc _ := none
  vvar name := if name = bytes "v" then some v else none

theorem wordless_of_unmarked {t : Bytes} (h : 64 ∉ t) (h0 : 0 ∉ t) : Wordless t :=
  ⟨⟨free_of_not_mem h, free_of_not_mem h, free_of_not_mem h⟩, h0⟩

theorem nothing_blank : ∀ c ∈ ([] : Bytes), isspace c = true := by simp

def letter {v : ℤ} (hv : 0 ≤ v) (before : Bytes) (hbefore : ∀ c ∈ before, isspace c = true)
    (c : UInt8) (hc : 64 ≠ c ∧ 0 ≠ c) : Block (flag v) where
  text := []
  before := before
  name := bytes "v"
  behind := []
  yes := [c]
  no := none
  text_wordless := wordless_of_unmarked (by decide) (by decide)
  before_blank := hbefore
  name_ident := List.all_eq_true.mp (by decide)
  name_ne_nil := by decide
  behind_blank := nothing_blank
  yes_wordless := wordless_of_unmarked (by simpa using hc.1) (by simpa using hc.2)
  no_wordless := by simp
  value := ⟨v, by simp [flag], hv⟩

/-- `@if(v)A@endif@if(   v)B@endif` -/
def letters : Page (flag 1) where
  blocks := [letter (by decide) [] nothing_blank 65 (by decide),
    letter (by decide) (bytes "   ") (List.all_eq_true.mp (by decide)) 66 (by decide)]
  tail := []
  tail_wordless := wordless_of_unmarked (by decide) (by decide)

/-- The last search reads a byte behind the text. -/
theorem statement_meaning_letters : letters.Rendered reference [] (fun _ _ => 120) ∧
    letters.ElseEmpty ∧ letters.WindowsFit 0 := by
  have hempty : letters.ElseEmpty := by
    intro B hB _
    simp only [letters, List.mem_cons, List.not_mem_nil, or_false] at hB
    rcases hB with rfl | rfl
    · rfl
    · rfl
  have hfit : letters.WindowsFit 0 := Page.everywhere_pair rfl
    ⟨by unfold Block.Reached; decide, by unfold Block.Inside; decide⟩
    ⟨by unfold Block.Reached; decide, by unfold Block.Inside; decide⟩
  have halone : letters.ElseAlone 0 := Page.everywhere_pair rfl
    (Block.alone_of_short _ _ _ (by decide)) (Block.alone_of_short _ _ _ (by decide))
  have hseams : letters.Seamless := Page.everywhere_pair rfl
    ⟨by decide, by decide, fun h => absurd rfl h⟩ ⟨by decide, by decide, fun h => absurd rfl h⟩
  have hsettled : letters.Settled := by
    intro X rest hsplit _
    have hfree : Free TOk_IF letters.residue := by decide
    exact absurd ⟨X, rest, by rw [hsplit]; simp⟩ hfree.not_isInfix
  have hmeaning := statement_meaning reference (flag 1) letters [] fun _ _ => 120
  have hrendered := hmeaning.1 hempty hfit halone hseams hsettled
  exact ⟨hrendered, hmeaning.2 halone hseams hsettled (by decide) hrendered⟩

/-- `<p>@if( v )yes@elseno@endif</p>` -/
def notice : Page (flag 0) where
  blocks := [
    { text := bytes "<p>"
      before := bytes " "
      name := bytes "v"
      behind := bytes " "
      yes := bytes "yes"
      no := some (bytes "no")
      text_wordless := wordless_of_unmarked (by decide) (by decide)
      before_blank := List.all_eq_true.mp (by decide)
      name_ident := List.all_eq_true.mp (by decide)
      name_ne_nil := by decide
      behind_blank := List.all_eq_true.mp (by decide)
      yes_wordless := wordless_of_unmarked (by decide) (by decide)
      no_wordless := by
        intro t ht
        obtain rfl := Option.mem_some.mp ht
        exact wordless_of_unmarked (by decide) (by decide)
      value := ⟨0, by simp [flag], le_rfl⟩ }]
  tail := bytes "</p>"
  tail_wordless := wordless_of_unmarked (by decide) (by decide)

/-- With a zero condition its else part is lost. -/
theorem notice_not_rendered : ¬ ∀ (K : Kore) (S : Symbols) (P : Page S) (slack : Bytes)
    (heap : ℕ → ℕ → UInt8), P.Rendered K slack heap := by
  intro hall
  obtain ⟨b', hret, hb'⟩ := hall reference (flag 0) notice [] fun _ _ => 120
  have hrun : (run (process_statement_body reference (flag 0)) 2
      (⟨notice.source ++ [], notice.source.length, fun _ _ => 120⟩ : AllocBuf)).map
        (Except.map Buffer.used) = some (.ok (bytes "<p></p>")) := by decide +kernel
  obtain ⟨r, hr, hused⟩ := Option.map_eq_some_iff.mp hrun
  cases r with
  | error e => cases hused
  | ok c =>
    rw [hret.unique ⟨2, hr⟩, Except.ok.inj hused] at hb'
    exact absurd hb' (by decide +kernel)

end ViewConditionals
