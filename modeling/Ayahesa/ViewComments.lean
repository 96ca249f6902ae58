import Ayahesa.HttpView
import Ayahesa.SplicedFragments
import Ayahesa.ViewMemorySafety
import Ayahesa.ViewTemplates

/-! # Comments

Comments are taken out behind the template and the include pass. Until then a comment is text
like any other, so what it holds does not matter only if those two passes come through it and its
marks survive them. Two runs on views that differ in one comment are compared; they may put in
different numbers of assets. -/
namespace ViewComments

open CMemory CompatStrings ByteSearch KoreApi KoreBuffer HttpRequest LoopIteration ViewPasses
open ViewDirectives ViewTemplates ViewMemorySafety ViewPredefined HttpView SplicedFragments

/-- A comment without the `@` that ends it. -/
def veiled (C : Bytes) : Bytes := TOk_COMMENT_OPEN ++ (C ++ [42, 47])

/-- The body does not end the comment early, not even with the star of the opening mark. -/
def Masked (C : Bytes) : Prop := Free TOk_COMMENT_CLOSE (TOk_COMMENT_OPEN ++ C)

instance (C : Bytes) : Decidable (Masked C) := inferInstanceAs (Decidable (Free _ _))

/-- A token that starts like the opening mark and has none of its other bytes. -/
structure Beside (token : Bytes) : Prop extends IsToken token where
  mark : token.head? = some 64
  star : 42 ∉ token
  slash : 47 ∉ token
  long : 2 < token.length

theorem TOk_TEMPLATE_beside : Beside TOk_TEMPLATE :=
  ⟨TOk_TEMPLATE_token, rfl, by decide, by decide, by decide⟩

theorem TOk_ENDTEMPLATE_beside : Beside TOk_ENDTEMPLATE :=
  ⟨TOk_ENDTEMPLATE_token, rfl, by decide, by decide, by decide⟩

theorem TOk_INCLUDE_beside : Beside TOk_INCLUDE :=
  ⟨TOk_INCLUDE_token, rfl, by decide, by decide, by decide⟩

theorem TOk_COMMENT_OPEN_bytes : TOk_COMMENT_OPEN = [64] ++ [47, 42] := by decide

theorem TOk_COMMENT_CLOSE_bytes : TOk_COMMENT_CLOSE = [42, 47] ++ [64] := by decide

section Search

variable {token P Q C : Bytes}

theorem veiled_clean (hC : 0 ∉ C) : 0 ∉ veiled C := by
  simp only [veiled, List.mem_append, not_or]
  exact ⟨by decide, hC, by decide⟩

theorem cut_before (ht : Beside token) (P C Q : Bytes) : Cut token P (veiled C ++ Q) :=
  cut_of_head ht.head (by rw [ht.mark]; rfl)

theorem cut_behind (ht : Beside token) (P C Q : Bytes) : Cut token (P ++ veiled C) Q := by
  have hend : P ++ veiled C = (P ++ (TOk_COMMENT_OPEN ++ (C ++ [42]))) ++ [47] := by
    simp [veiled]
  rw [hend]
  exact cut_of_end fun h => ht.slash (List.dropLast_subset _ h)

private theorem short_free (ht : Beside token) {s : Bytes} (h : s.length ≤ 2) : Free token s := by
  intro i ho
  have := ho.bound ht.head.ne_nil
  have := ht.long
  omega

theorem veiled_free (ht : Beside token) (hC : Free token C) : Free token (veiled C) := by
  have hsplit : veiled C = ([64] ++ [47]) ++ (([] ++ [42]) ++ (C ++ [42, 47])) := rfl
  have hslash : Cut token ([64] ++ [47]) (([] ++ [42]) ++ (C ++ [42, 47])) :=
    cut_of_end fun h => ht.slash (List.dropLast_subset _ h)
  have hstar : Cut token ([] ++ [42]) (C ++ [42, 47]) :=
    cut_of_end fun h => ht.star (List.dropLast_subset _ h)
  have hbody : Cut token C [42, 47] := cut_of_separator ht.star rfl
  rw [hsplit, hslash.free_iff ht.head.ne_nil, hstar.free_iff ht.head.ne_nil,
    hbody.free_iff ht.head.ne_nil]
  exact ⟨short_free ht (by decide), short_free ht (by decide), hC, short_free ht (by decide)⟩

theorem veiled_front_free (ht : Beside token) (hP : Free token P) (hC : Free token C) :
    Free token (P ++ (TOk_COMMENT_OPEN ++ C)) := by
  have hsplit : P ++ (TOk_COMMENT_OPEN ++ C) = (P ++ ([64] ++ [47])) ++ (([] ++ [42]) ++ C) := by
    simp [TOk_COMMENT_OPEN_bytes]
  have hmark : Cut token P ([64] ++ [47]) := cut_of_head ht.head (by rw [ht.mark]; rfl)
  have hslash : Cut token (P ++ ([64] ++ [47])) (([] ++ [42]) ++ C) := by
    rw [← List.append_assoc]
    exact cut_of_end fun h => ht.slash (List.dropLast_subset _ h)
  have hstar : Cut token ([] ++ [42]) C := cut_of_end fun h => ht.star (List.dropLast_subset _ h)
  rw [hsplit, hslash.free_iff ht.head.ne_nil, hmark.free_iff ht.head.ne_nil,
    hstar.free_iff ht.head.ne_nil]
  exact ⟨⟨hP, short_free ht (by decide)⟩, short_free ht (by decide), hC⟩

theorem around_free (ht : Beside token) (hC : Free token C) (hP : Free token P)
    (hQ : Free token Q) : Free token (P ++ (veiled C ++ Q)) := by
  rw [← List.append_assoc]
  have hleft := ((cut_before ht P C []).free_iff ht.head.ne_nil).mpr
    ⟨hP, by rw [List.append_nil]; exact veiled_free ht hC⟩
  rw [List.append_nil] at hleft
  exact ((cut_behind ht P C Q).free_iff ht.head.ne_nil).mpr ⟨hleft, hQ⟩

end Search

/-! ## The include pass -/

/-- What stands in the place of an include directive: the asset or, when it is missing, the
directive with a NUL for its bracket. -/
def stead (S : Symbols) (arg : Bytes) : Bytes :=
  (include_asset S (trimmed arg)).getD (TOk_INCLUDE ++ wiped arg)

/-- A round on the first directive of a text. -/
inductive Puts (S : Symbols) : Bytes → Bytes → Prop where
  | put {X arg Y : Bytes} : Free TOk_INCLUDE X → Plain arg → arg ≠ [] →
      Puts S (X ++ (TOk_INCLUDE ++ (arg ++ TOk_CLOSE :: Y))) (X ++ (stead S arg ++ 0 :: Y))

/-- The rounds on a text end with this one, in which no directive is left. -/
inductive Expands (S : Symbols) : Bytes → Bytes → Prop where
  | done {D : Bytes} : Free TOk_INCLUDE D → Expands S D D
  | put {X arg Y str D : Bytes} : Free TOk_INCLUDE X → Plain arg → arg ≠ [] →
      include_asset S (trimmed arg) = some str → Expands S (X ++ (str ++ 0 :: Y)) D →
      Expands S (X ++ (TOk_INCLUDE ++ (arg ++ TOk_CLOSE :: Y))) D

theorem Expands.free {S : Symbols} {C D : Bytes} (h : Expands S C D) : Free TOk_INCLUDE D := by
  induction h with
  | done hfree => exact hfree
  | put _ _ _ _ _ ih => exact ih

inductive Cuts : Bytes → Bytes → Prop where
  | cut {P : Bytes} {p e : ℕ} : find TOk_COMMENT_OPEN P = some p →
      find TOk_COMMENT_CLOSE P = some e → p ≤ e + TOk_COMMENT_CLOSE.length →
      Cuts P (P.take p ++ P.drop (e + TOk_COMMENT_CLOSE.length))

/-- With the `@` that follows the text makes no closing mark, however its comments are cut out. -/
def Quiet (P : Bytes) : Prop := ∀ P', Relation.ReflTransGen Cuts P P' → ¬ [42, 47] <:+ P'

/-- The text begins with the `@` that ends the comment, however its includes are put in. -/
def Steady (S : Symbols) (Q : Bytes) : Prop :=
  ∀ Q', Relation.ReflTransGen (Puts S) Q Q' → Q'.head? = some 64

/-- What surrounds the comment during the include pass. In front of it the directive that is
looked at is closed or cut off. -/
structure Side (S : Symbols) (P Q : Bytes) : Prop where
  closed : ∀ P', Relation.ReflTransGen (Puts S) P P' → ∀ X rest,
    P' = X ++ (TOk_INCLUDE ++ rest) → Free TOk_INCLUDE X → TOk_CLOSE ∈ rest ∨ 0 ∈ rest
  quiet : ∀ P', Relation.ReflTransGen (Puts S) P P' → Quiet P'
  steady : Steady S Q

theorem Steady.puts {S : Symbols} {Q Q' : Bytes} (h : Steady S Q) (hput : Puts S Q Q') :
    Steady S Q' := fun R hR => h R (hR.head hput)

theorem Steady.head {S : Symbols} {Q : Bytes} (h : Steady S Q) : Q.head? = some 64 := h Q .refl

theorem Side.puts {S : Symbols} {P P' Q : Bytes} (h : Side S P Q) (hput : Puts S P P') :
    Side S P' Q where
  closed R hR := h.closed R (hR.head hput)
  quiet R hR := h.quiet R (hR.head hput)
  steady := h.steady

/-- A body that the include pass comes through. -/
structure Hidden (S : Symbols) (C : Bytes) : Prop where
  masked : Masked C
  expands : ∃ D, Expands S C D ∧ Masked D

/-- Two buffers with the same bytes, or with the same bytes around their comments. -/
def Around (b b' : KoreBuf) : Prop :=
  SameData b b' ∨ ∃ P Q D D', Quiet P ∧ Q.head? = some 64 ∧ Masked D ∧ Masked D' ∧
    b.data = P ++ (veiled D ++ Q) ∧ b'.data = P ++ (veiled D' ++ Q)

section Include

variable {S : Symbols} {C C' P : Bytes} {b b' : KoreBuf}

/-- The buffers while the pass is in front of the comments. -/
def Framed (S : Symbols) (C C' : Bytes) (b b' : KoreBuf) : Prop :=
  ∃ P Q, Side S P Q ∧ b.data = P ++ (veiled C ++ Q) ∧ b'.data = P ++ (veiled C' ++ Q)

/-- The buffers once it is behind them. -/
def Passed (S : Symbols) (P D D' : Bytes) (b b' : KoreBuf) : Prop :=
  ∃ Q, Steady S Q ∧ b.data = P ++ (veiled D ++ Q) ∧ b'.data = P ++ (veiled D' ++ Q)

/-- Two rounds on a directive with one argument: either both leave the buffer as it is, or both
put one text in its place. -/
theorem include_at (K : Kore) (S : Symbols) {X X' arg Y Y' : Bytes} (ha : Plain arg)
    (hX : Free TOk_INCLUDE X) (hX' : Free TOk_INCLUDE X')
    (hb : b.data = X ++ (TOk_INCLUDE ++ (arg ++ TOk_CLOSE :: Y)))
    (hb' : b'.data = X' ++ (TOk_INCLUDE ++ (arg ++ TOk_CLOSE :: Y'))) :
    (process_include_body K S b = .ok (.done b) ∧
      process_include_body K S b' = .ok (.done b')) ∨
    arg ≠ [] ∧ ∀ {R Q : KoreBuf → KoreBuf → Prop},
      (∀ c c', c.data = X ++ (stead S arg ++ 0 :: Y) →
        c'.data = X' ++ (stead S arg ++ 0 :: Y') → R c c' ∧ Q c c') →
      StepRel R Q (process_include_body K S b) (process_include_body K S b') := by
  have ht := TOk_INCLUDE_token
  by_cases hne : arg = []
  · subst hne
    exact Or.inl ⟨substitute_empty K ht hX hb, substitute_empty K ht hX' hb'⟩
  · refine Or.inr ⟨hne, fun hR => ?_⟩
    rw [process_include_body, named_text_at K (include_asset S) ht ha hne hX hb,
      named_text_at K (include_asset S) ht ha hne hX' hb']
    unfold stead at hR
    cases hasset : include_asset S (trimmed arg) with
    | none =>
      rw [hasset] at hR
      exact .done (hR _ _ (by simp) (by simp)).2
    | some str =>
      rw [hasset] at hR
      exact .next (hR _ _ rfl rfl).1

theorem include_front (K : Kore) {X rest Q : Bytes} (hC : Masked C) (hC' : Masked C')
    (hside : Side S (X ++ (TOk_INCLUDE ++ rest)) Q) (hX : Free TOk_INCLUDE X)
    (hb : b.data = (X ++ (TOk_INCLUDE ++ rest)) ++ (veiled C ++ Q))
    (hb' : b'.data = (X ++ (TOk_INCLUDE ++ rest)) ++ (veiled C' ++ Q)) :
    StepRel (Framed S C C') Around (process_include_body K S b) (process_include_body K S b') := by
  have ht := TOk_INCLUDE_token
  have hunchanged : StepRel (ε := Fault) (Framed S C C') Around (.ok (.done b))
      (.ok (.done b')) :=
    .done (Or.inr ⟨_, Q, C, C', hside.quiet _ .refl, hside.steady.head, hC, hC', hb, hb'⟩)
  have hassoc : ∀ C, (X ++ (TOk_INCLUDE ++ rest)) ++ (veiled C ++ Q) =
      X ++ (TOk_INCLUDE ++ (rest ++ (veiled C ++ Q))) := by simp
  rw [hassoc] at hb hb'
  rcases follows rest with @⟨arg, Y, rfl, ha⟩ | @⟨arg, Y, rfl, ha⟩ | ha
  · rw [List.append_assoc, List.cons_append] at hb hb'
    rcases include_at K S ha hX hX hb hb' with ⟨hrun, hrun'⟩ | ⟨hne, hstep⟩
    · rw [hrun, hrun']
      exact hunchanged
    · have hput : Puts S _ (X ++ (stead S arg ++ 0 :: Y)) := .put hX ha hne
      refine hstep fun c c' hc hc' => ?_
      have hdata : c.data = (X ++ (stead S arg ++ 0 :: Y)) ++ (veiled C ++ Q) := by simp [hc]
      have hdata' : c'.data = (X ++ (stead S arg ++ 0 :: Y)) ++ (veiled C' ++ Q) := by simp [hc']
      exact ⟨⟨_, Q, hside.puts hput, hdata, hdata'⟩, Or.inr ⟨_, Q, C, C',
        hside.quiet _ (.single hput), hside.steady.head, hC, hC', hdata, hdata'⟩⟩
  · rw [List.append_assoc, List.cons_append] at hb hb'
    rw [process_include_body, substitute_cut K ht ha hX hb, substitute_cut K ht ha hX hb']
    exact hunchanged
  · rcases hside.closed _ .refl X rest rfl hX with hmem | hmem
    · exact absurd hmem ha.open_
    · exact absurd hmem ha.clean

theorem include_inside (K : Kore) {D Q : Bytes} (hexp : Expands S C D) (hP : Free TOk_INCLUDE P)
    (hb : b.data = P ++ (veiled C ++ Q)) :
    ∃ c, Visits (process_include_body K S) b c ∧ c.data = P ++ (veiled D ++ Q) := by
  induction hexp generalizing b with
  | done _ => exact ⟨b, .start, hb⟩
  | @put X arg Y str D hX ha hne hasset _ ih =>
    have hsplit : ∀ Z, P ++ (veiled (X ++ Z) ++ Q) =
        (P ++ (TOk_COMMENT_OPEN ++ X)) ++ (Z ++ ([42, 47] ++ Q)) := by simp [veiled]
    have hfree := veiled_front_free TOk_INCLUDE_beside hP hX
    rw [hsplit] at hb
    have hround := named_text_at K (include_asset S) TOk_INCLUDE_token ha hne hfree
      (Y := Y ++ ([42, 47] ++ Q)) (by rw [hb]; simp)
    rw [hasset] at hround
    obtain ⟨c, hvisits, hc⟩ := @ih ⟨(P ++ (TOk_COMMENT_OPEN ++ X)) ++
      (str ++ 0 :: (Y ++ ([42, 47] ++ Q))), b.offset + str.length⟩ (by rw [hsplit]; simp)
    exact ⟨c, (Visits.start.step hround).trans hvisits, hc⟩

theorem include_behind (K : Kore) {D D' : Bytes} (hP : Free TOk_INCLUDE P) (hquiet : Quiet P)
    (hD : Free TOk_INCLUDE D ∧ Masked D) (hD' : Free TOk_INCLUDE D' ∧ Masked D')
    (h : Passed S P D D' b b') : StepRel (Passed S P D D') Around (process_include_body K S b)
      (process_include_body K S b') := by
  have ht := TOk_INCLUDE_token
  obtain ⟨Q, hsteady, hb, hb'⟩ := h
  have hunchanged : StepRel (ε := Fault) (Passed S P D D') Around (.ok (.done b))
      (.ok (.done b')) :=
    .done (Or.inr ⟨P, Q, D, D', hquiet, hsteady.head, hD.2, hD'.2, hb, hb'⟩)
  have hfree : ∀ {D Z}, Free TOk_INCLUDE D → Free TOk_INCLUDE Z →
      Free TOk_INCLUDE (P ++ (veiled D ++ Z)) := fun hD hZ =>
    around_free TOk_INCLUDE_beside hD hP hZ
  rcases token_cases ht Q with hQ | ⟨X, rest, rfl, hX⟩
  · rw [process_include_body, substitute_free K ht (hb ▸ hfree hD.1 hQ),
      substitute_free K ht (hb' ▸ hfree hD'.1 hQ)]
    exact hunchanged
  have hassoc : ∀ C, P ++ (veiled C ++ (X ++ (TOk_INCLUDE ++ rest))) =
      (P ++ (veiled C ++ X)) ++ (TOk_INCLUDE ++ rest) := by simp
  rw [hassoc] at hb hb'
  rcases follows rest with @⟨arg, Y, rfl, ha⟩ | @⟨arg, Y, rfl, ha⟩ | ha
  · rcases include_at K S ha (hfree hD.1 hX) (hfree hD'.1 hX) hb hb' with
      ⟨hrun, hrun'⟩ | ⟨hne, hstep⟩
    · rw [hrun, hrun']
      exact hunchanged
    · have hnext := hsteady.puts (.put hX ha hne)
      refine hstep fun c c' hc hc' => ?_
      have hdata : c.data = P ++ (veiled D ++ (X ++ (stead S arg ++ 0 :: Y))) := by simp [hc]
      have hdata' : c'.data = P ++ (veiled D' ++ (X ++ (stead S arg ++ 0 :: Y))) := by simp [hc']
      exact ⟨⟨_, hnext, hdata, hdata'⟩,
        Or.inr ⟨P, _, D, D', hquiet, hnext.head, hD.2, hD'.2, hdata, hdata'⟩⟩
  · rw [process_include_body, substitute_cut K ht ha (hfree hD.1 hX) hb,
      substitute_cut K ht ha (hfree hD'.1 hX) hb']
    exact hunchanged
  · rw [process_include_body, substitute_open K ht ha (hfree hD.1 hX) hb,
      substitute_open K ht ha (hfree hD'.1 hX) hb']
    exact .error _

/-- The pass does the same around the two comments, though it may take other numbers of rounds. -/
theorem include_matches (K : Kore) (hC : Hidden S C) (hC' : Hidden S C')
    (h : Framed S C C' b b') :
    Matches Around (fun n => run (process_include_body K S) n b)
      fun n => run (process_include_body K S) n b' := by
  refine run_matches (fun c c' hframed => ?_) h
  obtain ⟨P, Q, hside, hb, hb'⟩ := hframed
  rcases token_cases TOk_INCLUDE_token P with hP | ⟨X, rest, rfl, hX⟩
  · obtain ⟨D, hexp, hmasked⟩ := hC.expands
    obtain ⟨D', hexp', hmasked'⟩ := hC'.expands
    obtain ⟨d, hvisits, hd⟩ := include_inside K hexp hP hb
    obtain ⟨d', hvisits', hd'⟩ := include_inside K hexp' hP hb'
    have hpassed : Passed S P D D' d d' := ⟨Q, hside.steady, hd, hd'⟩
    refine Or.inr (.of_visits hvisits hvisits' (.of_rel fun n => run_lockstep ?_ n hpassed))
    intro e e' he
    exact include_behind K hP (hside.quiet P .refl) ⟨hexp.free, hmasked⟩ ⟨hexp'.free, hmasked'⟩ he
  · exact Or.inl (include_front K hC.masked hC'.masked hside hX hb hb')

end Include

/-! ## The comment pass -/

section Comment

variable {K : Kore} {C C' P Q q : Bytes} {b b' : KoreBuf}

theorem veiled_append (C q : Bytes) : veiled C ++ 64 :: q =
    TOk_COMMENT_OPEN ++ (C ++ (TOk_COMMENT_CLOSE ++ q)) := by
  simp [veiled, TOk_COMMENT_CLOSE_bytes]

theorem Quiet.close_free (h : Quiet P) (hP : Free TOk_COMMENT_CLOSE P) :
    Free TOk_COMMENT_CLOSE (P ++ [64]) := by
  intro j ho
  have hbound := ho.bound TOk_COMMENT_CLOSE_token.head.ne_nil
  have hlen : TOk_COMMENT_CLOSE.length = 3 := rfl
  rw [List.length_append, List.length_singleton, hlen] at hbound
  by_cases hj : j + TOk_COMMENT_CLOSE.length ≤ P.length
  · exact hP j ((occurs_append_left hj).mp ho)
  · obtain ⟨left, right, hsplit, hleft⟩ := (occurs_iff_split (by simp; omega)).mp ho
    have hright : right = [] := by
      have hall := congrArg List.length hsplit
      simp only [List.length_append, List.length_singleton, hlen] at hall
      exact List.eq_nil_of_length_eq_zero (by omega)
    rw [hright, List.append_nil, TOk_COMMENT_CLOSE_bytes, ← List.append_assoc] at hsplit
    exact h P .refl ⟨left, (List.append_inj_left' hsplit rfl).symm⟩

/-- Where the pass finds the two marks. -/
theorem marks_around (hC : Masked C) (h : Quiet P) :
    find TOk_COMMENT_OPEN (P ++ (veiled C ++ 64 :: q)) =
      some ((find TOk_COMMENT_OPEN P).getD P.length) ∧
    find TOk_COMMENT_CLOSE (P ++ (veiled C ++ 64 :: q)) =
      some ((find TOk_COMMENT_CLOSE P).getD (P ++ (TOk_COMMENT_OPEN ++ C)).length) := by
  have hopen := TOk_COMMENT_OPEN_token.head
  have hclose := TOk_COMMENT_CLOSE_token.head
  rw [veiled_append]
  constructor
  · cases hf : find TOk_COMMENT_OPEN P with
    | some p => exact find_append_left _ hopen.ne_nil hf
    | none => exact find_at _ hopen ((find_eq_none_iff hopen.ne_nil).mp hf)
  · cases hf : find TOk_COMMENT_CLOSE P with
    | some e => exact find_append_left _ hclose.ne_nil hf
    | none =>
      have hP := (find_eq_none_iff hclose.ne_nil).mp hf
      have hcut : Cut TOk_COMMENT_CLOSE (P ++ [64]) ([47, 42] ++ C) := cut_of_end (by decide)
      have hopening : [64] ++ ([47, 42] ++ C) = TOk_COMMENT_OPEN ++ C := by
        rw [TOk_COMMENT_OPEN_bytes, List.append_assoc]
      have hbody : Free TOk_COMMENT_CLOSE ([47, 42] ++ C) :=
        hC.of_isInfix (hopening ▸ (List.suffix_append [64] _).isInfix)
      have hfree : Free TOk_COMMENT_CLOSE (P ++ (TOk_COMMENT_OPEN ++ C)) := by
        rw [← hopening, ← List.append_assoc]
        exact (hcut.free_iff hclose.ne_nil).mpr ⟨h.close_free hP, hbody⟩
      have hfind := find_at q hclose hfree
      simpa only [List.append_assoc, Option.getD_none] using hfind

theorem own_cut {p : ℕ} (hp : p ≤ P.length) (hb : b.data = P ++ (veiled C ++ 64 :: q)) :
    ∃ n, aya_buf_replace_string b p
      (((P ++ (TOk_COMMENT_OPEN ++ C)).length : ℤ) - p + TOk_COMMENT_CLOSE.length) [] =
      .ok ⟨P.take p ++ q, n⟩ := by
  have hsplit : b.data = P.take p ++
      ((P.drop p ++ (TOk_COMMENT_OPEN ++ (C ++ TOk_COMMENT_CLOSE))) ++ q) := by
    rw [hb, veiled_append]
    simp only [List.append_assoc]
    rw [← List.append_assoc (P.take p), List.take_append_drop]
  refine ⟨_, replace_string_at [] hsplit ?_ ?_⟩
  · rw [List.length_take, Nat.min_eq_left hp]
  · simp only [List.length_append, List.length_drop]
    omega

theorem earlier_cut {Z : Bytes} {p e : ℕ} (hp : p ≤ P.length)
    (he : e + TOk_COMMENT_CLOSE.length ≤ P.length) (hpe : p ≤ e + TOk_COMMENT_CLOSE.length)
    (hb : b.data = P ++ Z) :
    ∃ n, aya_buf_replace_string b p ((e : ℤ) - p + TOk_COMMENT_CLOSE.length) [] =
      .ok ⟨P.take p ++ ([] ++ (P.drop (e + TOk_COMMENT_CLOSE.length) ++ Z)), n⟩ := by
  have hdrop : (P.drop p).drop (e + TOk_COMMENT_CLOSE.length - p) =
      P.drop (e + TOk_COMMENT_CLOSE.length) := by
    rw [List.drop_drop]
    congr 1
    omega
  have hsplit : b.data = P.take p ++ ((P.drop p).take (e + TOk_COMMENT_CLOSE.length - p) ++
      (P.drop (e + TOk_COMMENT_CLOSE.length) ++ Z)) := by
    rw [hb, ← List.append_assoc ((P.drop p).take _), ← hdrop, List.take_append_drop,
      ← List.append_assoc (P.take p), List.take_append_drop]
  refine ⟨_, replace_string_at [] hsplit ?_ ?_⟩
  · rw [List.length_take, Nat.min_eq_left hp]
  · simp only [List.length_take, List.length_drop]
    omega

/-- One round takes out an earlier comment, or this one and with it the difference. -/
theorem comment_step (h : Around b b') :
    StepRel Around SameData (process_comment_body K b) (process_comment_body K b') := by
  rcases h with hsame | ⟨P, Q, C, C', hquiet, hmark, hC, hC', hb, hb'⟩
  · exact (comment_same hsame).mono (fun _ _ => Or.inl) fun _ _ => id
  obtain ⟨q, rfl⟩ : ∃ q, Q = 64 :: q := by
    cases Q with
    | nil => cases hmark
    | cons c q => exact ⟨q, by rw [Option.some.inj hmark]⟩
  obtain ⟨p, hp⟩ : ∃ p, (find TOk_COMMENT_OPEN P).getD P.length = p := ⟨_, rfl⟩
  have hpP : p ≤ P.length := by
    rw [← hp]
    cases hf : find TOk_COMMENT_OPEN P with
    | none => exact le_rfl
    | some i =>
      have := find_bound TOk_COMMENT_OPEN_token.head.ne_nil hf
      rw [Option.getD_some]
      omega
  have hmarks : ∀ {C : Bytes} {b : KoreBuf}, Masked C → b.data = P ++ (veiled C ++ 64 :: q) →
      comment_marks K b = .ok (some (p,
        (find TOk_COMMENT_CLOSE P).getD (P ++ (TOk_COMMENT_OPEN ++ C)).length)) := by
    intro C b hC hb
    obtain ⟨hopen, hclose⟩ := marks_around hC hquiet
    rw [comment_marks_eq, hb, hopen, hclose, hp]
    rfl
  simp only [process_comment_body, hmarks hC hb, hmarks hC' hb', Buffer.replace_string, bind,
    Except.bind, pure, Except.pure]
  cases he : find TOk_COMMENT_CLOSE P with
  | none =>
    obtain ⟨n, hn⟩ := own_cut hpP hb
    obtain ⟨n', hn'⟩ := own_cut hpP hb'
    simp only [Option.getD_none, hn, hn']
    exact .next (Or.inl rfl)
  | some e =>
    have hbe := find_bound TOk_COMMENT_CLOSE_token.head.ne_nil he
    by_cases hneg : e + TOk_COMMENT_CLOSE.length < p
    · simp only [Option.getD_some]
      rw [replace_string_negative (by omega), replace_string_negative (by omega)]
      exact .error _
    · obtain ⟨n, hn⟩ := earlier_cut hpP hbe (not_lt.mp hneg) hb
      obtain ⟨n', hn'⟩ := earlier_cut hpP hbe (not_lt.mp hneg) hb'
      have hnext : Quiet (P.take p ++ P.drop (e + TOk_COMMENT_CLOSE.length)) := by
        cases hopen : find TOk_COMMENT_OPEN P with
        | none =>
          rw [hopen, Option.getD_none] at hp
          rw [List.drop_eq_nil_of_le (by omega), ← hp, List.take_length, List.append_nil]
          exact hquiet
        | some i =>
          rw [hopen, Option.getD_some] at hp
          exact fun P' hP' => hquiet P' (hP'.head (.cut (hp ▸ hopen) he (not_lt.mp hneg)))
      simp only [Option.getD_some, hn, hn']
      exact .next (Or.inr ⟨_, _, C, C', hnext, hmark, hC, hC', by simp, by simp⟩)

end Comment

/-! ## The template pass -/

/-- The first template directive of the text names an asset, so that the pass takes a body. -/
def Wraps (S : Symbols) (t : Bytes) : Prop :=
  ∃ X arg Y, LookedAt TOk_TEMPLATE t X arg Y ∧ arg ≠ [] ∧ include_asset S (trimmed arg) ≠ none

/-- What the pass leaves in front of the comment and behind it, if the comment stays. -/
inductive Leaves (S : Symbols) (pre post : Bytes) : Bytes → Bytes → Prop where
  | untouched : Free TOk_TEMPLATE pre → Leaves S pre post pre (64 :: post)
  | empty {X Y : Bytes} : LookedAt TOk_TEMPLATE pre X [] Y → Leaves S pre post pre (64 :: post)
  | closed {X arg Y : Bytes} : LookedAt TOk_TEMPLATE pre X arg Y → arg ≠ [] →
      Leaves S pre post (templateClosed X arg Y) (64 :: post)
  | behind {X arg Y : Bytes} : Free TOk_TEMPLATE pre →
      LookedAt TOk_TEMPLATE (64 :: post) X arg Y → arg ≠ [] →
      Leaves S pre post pre (templateClosed X arg Y)
  | layout {X arg Y A B E F : Bytes} : LookedAt TOk_TEMPLATE pre X arg Y → arg ≠ [] →
      include_asset S (trimmed arg) = some (A ++ (yield_mark ++ B)) → Free yield_mark A →
      Free TOk_ENDTEMPLATE pre → 64 :: post = E ++ (TOk_ENDTEMPLATE ++ F) →
      Free TOk_ENDTEMPLATE E → Leaves S pre post (A ++ Y.drop (leading arg)) (E ++ B)

/-- What surrounds the comment in the view. The template directive in front of it is closed there,
and the body that it takes begins there. -/
structure Setting (S : Symbols) (pre post : Bytes) : Prop where
  pre_clean : 0 ∉ pre
  post_clean : 0 ∉ post
  closed : ∀ X rest, pre = X ++ (TOk_TEMPLATE ++ rest) → Free TOk_TEMPLATE X → TOk_CLOSE ∈ rest
  inside : ∀ X arg Y, LookedAt TOk_TEMPLATE pre X arg Y → include_asset S (trimmed arg) ≠ none →
    ¬(Free TOk_ENDTEMPLATE pre ∧ Free TOk_ENDTEMPLATE (64 :: post)) → leading arg ≤ Y.length
  sides : ∀ P Q, Leaves S pre post P Q → Side S P Q

/-- What the template pass makes of a body that it does not take apart. Its template directive may
be the only one of the view; then it is spent without effect. -/
inductive Endures (S : Symbols) (pre post : Bytes) : Bytes → Bytes → Prop where
  | kept {C : Bytes} : Free TOk_TEMPLATE C ∨ ¬Free TOk_TEMPLATE pre →
      Free TOk_ENDTEMPLATE C ∨ ¬Free TOk_ENDTEMPLATE pre ∨
        ¬(Wraps S pre ∨ Free TOk_TEMPLATE pre ∧ Wraps S (64 :: post)) →
      Endures S pre post C C
  | empty {C X Y : Bytes} : Free TOk_TEMPLATE pre → Free TOk_TEMPLATE (64 :: post) →
      LookedAt TOk_TEMPLATE C X [] Y → Endures S pre post C C
  | closed {C X arg Y : Bytes} : Free TOk_TEMPLATE pre → Free TOk_TEMPLATE (64 :: post) →
      LookedAt TOk_TEMPLATE C X arg Y → arg ≠ [] →
      include_asset S (trimmed arg) = none ∨
        Free TOk_ENDTEMPLATE pre ∧ Free TOk_ENDTEMPLATE C ∧ Free TOk_ENDTEMPLATE (64 :: post) →
      Endures S pre post C (closedAt X TOk_TEMPLATE arg Y)

/-- A body that neither of the two passes in front of the comment pass stumbles over. -/
structure Inert (S : Symbols) (pre post C : Bytes) : Prop where
  clean : 0 ∉ C
  endures : ∃ D, Endures S pre post C D ∧ Hidden S D

section Template

variable {K : Kore} {S : Symbols} {C C' L R : Bytes} {i : ℕ}

theorem find_around {token : Bytes} (ht : Beside token) (hC : Free token C ∨ ¬Free token L)
    (R : Bytes) :
    find token (L ++ (veiled C ++ R)) =
      match find token L with
      | some e => some e
      | none => (find token R).map fun k => L.length + (veiled C).length + k := by
  cases hf : find token L with
  | some e => exact find_append_left _ ht.head.ne_nil hf
  | none =>
    have hL := (find_eq_none_iff ht.head.ne_nil).mp hf
    replace hC := hC.resolve_right (not_not.mpr hL)
    have hcut : Cut token (veiled C) R := by simpa using cut_behind ht [] C R
    rw [find_append_of_free (cut_before ht L C R) ht.head.ne_nil hL,
      find_append_of_free hcut ht.head.ne_nil (veiled_free ht hC)]
    cases find token R with
    | none => rfl
    | some k => simp [Nat.add_assoc]

theorem set_front {e : ℕ} (he : find TOk_ENDTEMPLATE L = some e) (Z : Bytes) :
    (L ++ Z).set e 0 = L.set e 0 ++ Z := by
  have hb := find_bound TOk_ENDTEMPLATE_token.head.ne_nil he
  have hpos := TOk_ENDTEMPLATE_token.head.length_pos
  exact List.set_append_left _ _ (by omega)

theorem set_back (L M R : Bytes) (k : ℕ) :
    (L ++ (M ++ R)).set (L.length + M.length + k) 0 = L ++ (M ++ R.set k 0) := by
  rw [Nat.add_assoc, List.set_append_right _ _ (by omega), Nat.add_sub_cancel_left,
    List.set_append_right _ _ (by omega), Nat.add_sub_cancel_left]

theorem body_front (K : Kore) (hC0 : 0 ∉ C)
    (hC : Free TOk_ENDTEMPLATE C ∨ ¬Free TOk_ENDTEMPLATE L) (len : ℕ) (hi : i ≤ L.length)
    (hL : 0 ∉ L.drop i) (hR : 0 ∉ R) :
    template_body K (⟨L ++ (veiled C ++ R), len⟩ : KoreBuf) i =
      match find TOk_ENDTEMPLATE L with
      | some e =>
        if 0 ∈ (L.set e 0).drop i then
          .ok (⟨L.set e 0 ++ (veiled C ++ R), len⟩, some (c_string ((L.set e 0).drop i)))
        else .error .outOfBounds
      | none =>
        match find TOk_ENDTEMPLATE R with
        | none => .ok (⟨L ++ (veiled C ++ R), len⟩, none)
        | some k => .ok (⟨L ++ (veiled C ++ R.set k 0), len⟩,
            some (L.drop i ++ (veiled C ++ R.take k))) := by
  rw [template_body_eq, find_around TOk_ENDTEMPLATE_beside hC]
  have hveiled := veiled_clean hC0
  cases hf : find TOk_ENDTEMPLATE L with
  | some e =>
    have hset := set_front hf (veiled C ++ R)
    have hdrop : (L.set e 0 ++ (veiled C ++ R)).drop i =
        (L.set e 0).drop i ++ (veiled C ++ R) :=
      List.drop_append_of_le_length (by rw [List.length_set]; exact hi)
    simp only [hset]
    rw [cstr_drop, hdrop]
    by_cases h0 : 0 ∈ (L.set e 0).drop i
    · rw [if_pos h0, cstr_of_mem _ h0]
      rfl
    · rw [if_neg h0, cstr_of_clean]
      · rfl
      · simp only [List.mem_append, not_or]
        exact ⟨h0, hveiled, hR⟩
  | none =>
    cases hk : find TOk_ENDTEMPLATE R with
    | none => rfl
    | some k =>
      have hb := find_bound TOk_ENDTEMPLATE_token.head.ne_nil hk
      have hpos := TOk_ENDTEMPLATE_token.head.length_pos
      have hset := set_back L (veiled C) R k
      have hsplit : R.set k 0 = R.take k ++ 0 :: R.drop (k + 1) := by
        rw [List.set_eq_take_append_cons_drop, if_pos (by omega)]
      have hdrop : (L ++ (veiled C ++ R.set k 0)).drop i =
          (L.drop i ++ (veiled C ++ R.take k)) ++ 0 :: R.drop (k + 1) := by
        rw [List.drop_append_of_le_length hi, hsplit]
        simp
      have hclean : 0 ∉ L.drop i ++ (veiled C ++ R.take k) := by
        simp only [List.mem_append, not_or]
        exact ⟨hL, hveiled, fun h => hR (List.mem_of_mem_take h)⟩
      simp only [Option.map_some, hset]
      rw [cstr_drop, hdrop, cstr_start _ hclean]
      rfl

theorem body_back (K : Kore) (hC : Free TOk_ENDTEMPLATE C ∨ ¬Free TOk_ENDTEMPLATE L)
    (len k : ℕ) :
    template_body K (⟨L ++ (veiled C ++ R), len⟩ : KoreBuf)
        (L.length + (veiled C).length + k) =
      match find TOk_ENDTEMPLATE L with
      | some e => (do
        let body ← cstr R k
        return (⟨L.set e 0 ++ (veiled C ++ R), len⟩, some body))
      | none =>
        match find TOk_ENDTEMPLATE R with
        | none => .ok (⟨L ++ (veiled C ++ R), len⟩, none)
        | some j => (do
          let body ← cstr (R.set j 0) k
          return (⟨L ++ (veiled C ++ R.set j 0), len⟩, some body)) := by
  rw [template_body_eq, find_around TOk_ENDTEMPLATE_beside hC]
  have hdrop : ∀ A B : Bytes, A.length = L.length →
      cstr (A ++ (veiled C ++ B)) (L.length + (veiled C).length + k) = cstr B k := by
    intro A B hA
    rw [cstr_drop, cstr_drop B, ← hA, ← List.append_assoc, ← List.length_append, ← List.drop_drop,
      List.drop_left]
  cases hf : find TOk_ENDTEMPLATE L with
  | some e =>
    simp only [set_front hf, hdrop _ _ List.length_set]
  | none =>
    cases hj : find TOk_ENDTEMPLATE R with
    | none => rfl
    | some j =>
      simp only [Option.map_some, set_back, hdrop _ _ rfl]

variable {pre post : Bytes} {b b' : KoreBuf}

/-- The buffers behind the pass: the same, or with the comments in what it leaves around them. -/
def Wrapped (S : Symbols) (pre post C C' : Bytes) (b b' : KoreBuf) : Prop :=
  SameData b b' ∨ ∃ P Q, Leaves S pre post P Q ∧
    b.data = P ++ (veiled C ++ Q) ∧ b'.data = P ++ (veiled C' ++ Q)

theorem layout_same (K : Kore) (asset body : Bytes) : OutcomeRel (Wrapped S pre post C C')
    (some (aya_buf_replace_first_string K (kore_buf_of asset) yield_mark body))
    (some (aya_buf_replace_first_string K (kore_buf_of asset) yield_mark body)) := by
  have hrefl : ∀ c, Wrapped S pre post C C' c c := fun _ => Or.inl rfl
  exact .refl hrefl _

theorem layout_around (K : Kore) {asset Z E : Bytes}
    (hleaves : ∀ A B, asset = A ++ (yield_mark ++ B) → Free yield_mark A →
      Leaves S pre post (A ++ Z) (E ++ B)) :
    OutcomeRel (Wrapped S pre post C C')
      (some (aya_buf_replace_first_string K (kore_buf_of asset) yield_mark (Z ++ (veiled C ++ E))))
      (some (aya_buf_replace_first_string K (kore_buf_of asset) yield_mark
        (Z ++ (veiled C' ++ E)))) := by
  cases hf : find yield_mark asset with
  | none =>
    have hfree := (find_eq_none_iff yield_mark_ne_nil).mp hf
    rw [replace_first_string_free _ yield_mark_ne_nil hfree,
      replace_first_string_free _ yield_mark_ne_nil hfree]
    exact .returned (Or.inl rfl)
  | some i =>
    obtain ⟨A, B, hsplit, rfl, hA⟩ := find_split yield_mark_ne_nil hf
    rw [List.append_assoc] at hsplit
    rw [replace_first_string_found _ yield_mark_ne_nil hsplit hf,
      replace_first_string_found _ yield_mark_ne_nil hsplit hf]
    exact .returned (Or.inr ⟨A ++ Z, E ++ B, hleaves A B hsplit hA, by simp, by simp⟩)

theorem templateClosed_append (X arg Y Z : Bytes) :
    templateClosed X arg (Y ++ Z) = templateClosed X arg Y ++ Z := by
  simp [templateClosed]

theorem bodyStart_le {X arg Y : Bytes} (h : leading arg ≤ Y.length) :
    bodyStart X arg ≤ (templateClosed X arg Y).length := by
  simp only [templateClosed, bodyStart, List.length_append, List.length_cons, wiped_length]
  omega

theorem behind_directive (X arg Y : Bytes) :
    Y <:+ X ++ (TOk_TEMPLATE ++ (arg ++ TOk_CLOSE :: Y)) :=
  ⟨X ++ (TOk_TEMPLATE ++ (arg ++ [TOk_CLOSE])), by simp⟩

theorem endtemplate_closed {X arg Y : Bytes} : Free TOk_ENDTEMPLATE (templateClosed X arg Y) ↔
    Free TOk_ENDTEMPLATE (X ++ (TOk_TEMPLATE ++ (arg ++ TOk_CLOSE :: Y))) :=
  free_closedAt_iff TOk_ENDTEMPLATE_token (by decide +kernel)

/-- No other template directive takes a body away from the comment. -/
theorem Endures.kept_iff {D : Bytes} (h : Endures S pre post C D)
    (hother : ¬Free TOk_TEMPLATE pre ∨ ¬Free TOk_TEMPLATE (64 :: post)) :
    D = C ∧ (Free TOk_TEMPLATE C ∨ ¬Free TOk_TEMPLATE pre) ∧
      (Free TOk_ENDTEMPLATE C ∨ ¬Free TOk_ENDTEMPLATE pre ∨
        ¬(Wraps S pre ∨ Free TOk_TEMPLATE pre ∧ Wraps S (64 :: post))) := by
  cases h with
  | kept htemplate hend => exact ⟨rfl, htemplate, hend⟩
  | empty hpre hpost _ => exact absurd hother (by simp [hpre, hpost])
  | closed hpre hpost _ _ _ => exact absurd hother (by simp [hpre, hpost])

/-- Where a body begins in the text in front, what becomes of it depends on the comment only if the
body holds the comment. -/
theorem body_taken (K : Kore) {X arg Y asset : Bytes} (hC0 : 0 ∉ C) (hC0' : 0 ∉ C')
    (hC : Free TOk_ENDTEMPLATE C ∨ ¬Free TOk_ENDTEMPLATE (templateClosed X arg Y))
    (hC' : Free TOk_ENDTEMPLATE C' ∨ ¬Free TOk_ENDTEMPLATE (templateClosed X arg Y))
    (hset : Setting S pre post) (hlooked : LookedAt TOk_TEMPLATE pre X arg Y) (hne : arg ≠ [])
    (hasset : include_asset S (trimmed arg) = some asset)
    (hstart : bodyStart X arg ≤ (templateClosed X arg Y).length) (len len' : ℕ) :
    OutcomeRel (Wrapped S pre post C C')
      (some (do
        let (buffer, body) ← template_body K
          (⟨templateClosed X arg Y ++ (veiled C ++ 64 :: post), len⟩ : KoreBuf) (bodyStart X arg)
        match body with
        | none => return buffer
        | some body => aya_buf_replace_first_string K (kore_buf_of asset) yield_mark body))
      (some (do
        let (buffer, body) ← template_body K
          (⟨templateClosed X arg Y ++ (veiled C' ++ 64 :: post), len'⟩ : KoreBuf) (bodyStart X arg)
        match body with
        | none => return buffer
        | some body => aya_buf_replace_first_string K (kore_buf_of asset) yield_mark body)) := by
  obtain ⟨hpre, hX, ha⟩ := id hlooked
  have hcleanY : 0 ∉ (templateClosed X arg Y).drop (bodyStart X arg) := by
    rw [drop_bodyStart]
    intro h
    apply hset.pre_clean
    rw [hpre]
    exact (behind_directive X arg Y).subset (List.mem_of_mem_drop h)
  have hcleanQ : 0 ∉ (64 :: post : Bytes) := by
    simpa using hset.post_clean
  rw [body_front K hC0 hC _ hstart hcleanY hcleanQ, body_front K hC0' hC' _ hstart hcleanY hcleanQ]
  cases hfront : find TOk_ENDTEMPLATE (templateClosed X arg Y) with
  | some e =>
    -- the body ends in front of the comment
    dsimp only
    split
    · exact layout_same K asset _
    · exact .error _
  | none =>
    cases hk : find TOk_ENDTEMPLATE (64 :: post) with
    | none => exact .returned (Or.inr ⟨_, _, .closed hlooked hne, rfl, rfl⟩)
    | some k =>
      -- the body holds the comment
      obtain ⟨E, F, hpost, rfl, hE⟩ := find_split TOk_ENDTEMPLATE_token.head.ne_nil hk
      rw [List.append_assoc] at hpost
      have htake : (64 :: post).take E.length = E := by
        rw [hpost, List.take_left]
      have hfree : Free TOk_ENDTEMPLATE pre := by
        rw [hpre, ← endtemplate_closed]
        exact (find_eq_none_iff TOk_ENDTEMPLATE_token.head.ne_nil).mp hfront
      dsimp only
      rw [htake, drop_bodyStart]
      refine layout_around K fun A B hsplit hA => ?_
      exact .layout hlooked hne (hsplit ▸ hasset) hA hfree hpost hE

theorem template_front {X arg Y : Bytes} (hC0 : 0 ∉ C) (hC0' : 0 ∉ C')
    (hC : Free TOk_ENDTEMPLATE C ∨ ¬Free TOk_ENDTEMPLATE pre ∨ ¬Wraps S pre)
    (hC' : Free TOk_ENDTEMPLATE C' ∨ ¬Free TOk_ENDTEMPLATE pre ∨ ¬Wraps S pre)
    (hset : Setting S pre post) (hlooked : LookedAt TOk_TEMPLATE pre X arg Y) (hne : arg ≠ [])
    (hb : b.data = pre ++ (veiled C ++ 64 :: post))
    (hb' : b'.data = pre ++ (veiled C' ++ 64 :: post)) :
    OutcomeRel (Wrapped S pre post C C') (some (process_template K S b))
      (some (process_template K S b')) := by
  obtain ⟨hpre, hX, ha⟩ := id hlooked
  have hassoc : ∀ Z, pre ++ Z = X ++ (TOk_TEMPLATE ++ (arg ++ TOk_CLOSE :: (Y ++ Z))) := by
    rw [hpre]
    simp
  rw [hassoc] at hb hb'
  have hunwrapped : OutcomeRel (ε := Fault) (Wrapped S pre post C C')
      (some (.ok ⟨templateClosed X arg Y ++ (veiled C ++ 64 :: post), b.length⟩))
      (some (.ok ⟨templateClosed X arg Y ++ (veiled C' ++ 64 :: post), b'.length⟩)) :=
    .returned (Or.inr ⟨_, _, .closed hlooked hne, rfl, rfl⟩)
  rw [process_template_at K ha hne hX hb, process_template_at K ha hne hX hb',
    templateClosed_append, templateClosed_append]
  cases hasset : include_asset S (trimmed arg) with
  | none => exact hunwrapped
  | some asset =>
    have hwraps : Wraps S pre := ⟨X, arg, Y, hlooked, hne, by simp [hasset]⟩
    have hend : ∀ {C}, Free TOk_ENDTEMPLATE C ∨ ¬Free TOk_ENDTEMPLATE pre ∨ ¬Wraps S pre →
        Free TOk_ENDTEMPLATE C ∨ ¬Free TOk_ENDTEMPLATE (templateClosed X arg Y) := by
      intro C hC
      rw [endtemplate_closed, ← hpre]
      exact hC.imp_right fun h => h.resolve_right (not_not.mpr hwraps)
    dsimp only
    by_cases hnone : Free TOk_ENDTEMPLATE pre ∧ Free TOk_ENDTEMPLATE (64 :: post)
    · -- no body is taken, so nothing depends on where it would begin
      have hfree : ∀ {C}, Free TOk_ENDTEMPLATE C ∨ ¬Free TOk_ENDTEMPLATE pre ∨ ¬Wraps S pre →
          find TOk_ENDTEMPLATE (templateClosed X arg Y ++ (veiled C ++ 64 :: post)) = none := by
        intro C hC
        have hfront : Free TOk_ENDTEMPLATE (templateClosed X arg Y) := by
          rw [endtemplate_closed, ← hpre]
          exact hnone.1
        rw [find_eq_none_iff TOk_ENDTEMPLATE_token.head.ne_nil]
        exact around_free TOk_ENDTEMPLATE_beside ((hend hC).resolve_right (not_not.mpr hfront))
          hfront hnone.2
      rw [template_body_eq, template_body_eq, hfree hC, hfree hC']
      exact hunwrapped
    · have hstart : bodyStart X arg ≤ (templateClosed X arg Y).length :=
        bodyStart_le (hset.inside X arg Y hlooked (by simp [hasset]) hnone)
      exact body_taken K hC0 hC0' (hend hC) (hend hC') hset hlooked hne hasset hstart _ _

theorem template_behind {X rest : Bytes}
    (hC : Free TOk_ENDTEMPLATE C ∨ ¬Free TOk_ENDTEMPLATE pre ∨ ¬Wraps S (64 :: post))
    (hC' : Free TOk_ENDTEMPLATE C' ∨ ¬Free TOk_ENDTEMPLATE pre ∨ ¬Wraps S (64 :: post))
    (hpre : Free TOk_TEMPLATE pre) (hX : Free TOk_TEMPLATE X)
    (hpost : 64 :: post = X ++ (TOk_TEMPLATE ++ rest))
    (hfree : Free TOk_TEMPLATE (pre ++ (veiled C ++ X)))
    (hfree' : Free TOk_TEMPLATE (pre ++ (veiled C' ++ X)))
    (hb : b.data = pre ++ (veiled C ++ 64 :: post))
    (hb' : b'.data = pre ++ (veiled C' ++ 64 :: post)) :
    OutcomeRel (Wrapped S pre post C C') (some (process_template K S b))
      (some (process_template K S b')) := by
  have hunchanged : OutcomeRel (ε := Fault) (Wrapped S pre post C C') (some (.ok b))
      (some (.ok b')) :=
    .returned (Or.inr ⟨pre, _, .untouched hpre, hb, hb'⟩)
  have hassoc : ∀ C, pre ++ (veiled C ++ (X ++ (TOk_TEMPLATE ++ rest))) =
      (pre ++ (veiled C ++ X)) ++ (TOk_TEMPLATE ++ rest) := by simp
  rw [hpost, hassoc] at hb hb'
  rcases follows rest with @⟨arg, Y, rfl, ha⟩ | @⟨arg, Y, rfl, ha⟩ | ha
  · by_cases hne : arg = []
    · subst hne
      rw [process_template_empty K hfree hb, process_template_empty K hfree' hb']
      exact hunchanged
    · have hlooked : LookedAt TOk_TEMPLATE (64 :: post) X arg Y := ⟨hpost, hX, ha⟩
      have hleaves : Leaves S pre post pre (templateClosed X arg Y) := .behind hpre hlooked hne
      have hclosed : ∀ C, templateClosed (pre ++ (veiled C ++ X)) arg Y =
          pre ++ (veiled C ++ templateClosed X arg Y) := by
        intro C
        simp [templateClosed]
      have hstart : ∀ C, bodyStart (pre ++ (veiled C ++ X)) arg =
          pre.length + (veiled C).length + bodyStart X arg := by
        intro C
        simp only [bodyStart, List.length_append]
        omega
      rw [process_template_at K ha hne hfree hb, process_template_at K ha hne hfree' hb',
        hclosed, hclosed, hstart, hstart]
      cases hasset : include_asset S (trimmed arg) with
      | none => exact .returned (Or.inr ⟨pre, _, hleaves, rfl, rfl⟩)
      | some asset =>
        have hwraps : Wraps S (64 :: post) := ⟨X, arg, Y, hlooked, hne, by simp [hasset]⟩
        replace hC := hC.imp_right fun h => h.resolve_right (not_not.mpr hwraps)
        replace hC' := hC'.imp_right fun h => h.resolve_right (not_not.mpr hwraps)
        dsimp only
        rw [body_back K hC, body_back K hC']
        cases find TOk_ENDTEMPLATE pre with
        | some e =>
          dsimp only
          cases cstr (templateClosed X arg Y) (bodyStart X arg) with
          | error e => exact .error e
          | ok body => exact layout_same K asset body
        | none =>
          cases find TOk_ENDTEMPLATE (templateClosed X arg Y) with
          | none => exact .returned (Or.inr ⟨pre, _, hleaves, rfl, rfl⟩)
          | some j =>
            dsimp only
            cases cstr ((templateClosed X arg Y).set j 0) (bodyStart X arg) with
            | error e => exact .error e
            | ok body => exact layout_same K asset body
  · rw [process_template_cut K ha hfree hb, process_template_cut K ha hfree' hb']
    exact hunchanged
  · rw [process_template_open K ha hfree hb, process_template_open K ha hfree' hb']
    exact .error _

theorem template_inside (K : Kore) {D : Bytes} (h : Endures S pre post C D)
    (hpre : Free TOk_TEMPLATE pre) (hpost : Free TOk_TEMPLATE (64 :: post))
    (hb : b.data = pre ++ (veiled C ++ 64 :: post)) :
    ∃ n, process_template K S b = .ok ⟨pre ++ (veiled D ++ 64 :: post), n⟩ := by
  have hwhole : b = ⟨pre ++ (veiled C ++ 64 :: post), b.length⟩ := by rw [← hb]
  have hassoc : ∀ X Z, pre ++ (veiled (X ++ (TOk_TEMPLATE ++ Z)) ++ 64 :: post) =
      (pre ++ (TOk_COMMENT_OPEN ++ X)) ++ (TOk_TEMPLATE ++ (Z ++ ([42, 47] ++ 64 :: post))) := by
    simp [veiled]
  cases h with
  | kept htemplate _ =>
    have hfree := around_free TOk_TEMPLATE_beside
      (htemplate.resolve_right (not_not.mpr hpre)) hpre hpost
    refine ⟨b.length, ?_⟩
    rw [process_template_free K (hb ▸ hfree), ← hwhole]
  | @empty X Y _ _ hlooked =>
    have hfree := veiled_front_free TOk_TEMPLATE_beside hpre hlooked.leftmost
    refine ⟨b.length, ?_⟩
    rw [process_template_empty (Y := Y ++ ([42, 47] ++ 64 :: post)) K hfree, ← hwhole]
    rw [hb, hlooked.split, hassoc]
    simp
  | @closed X arg Y _ _ hlooked hne hspent =>
    have hfree := veiled_front_free TOk_TEMPLATE_beside hpre hlooked.leftmost
    have hdata : b.data = (pre ++ (TOk_COMMENT_OPEN ++ X)) ++
        (TOk_TEMPLATE ++ (arg ++ TOk_CLOSE :: (Y ++ ([42, 47] ++ 64 :: post)))) := by
      rw [hb, hlooked.split, hassoc]
      simp
    have hclosed : templateClosed (pre ++ (TOk_COMMENT_OPEN ++ X)) arg
        (Y ++ ([42, 47] ++ 64 :: post)) =
          pre ++ (veiled (closedAt X TOk_TEMPLATE arg Y) ++ 64 :: post) := by
      simp [templateClosed, closedAt, veiled]
    refine ⟨b.length, ?_⟩
    rw [process_template_at K hlooked.plain hne hfree hdata, hclosed]
    cases hasset : include_asset S (trimmed arg) with
    | none => rfl
    | some asset =>
      obtain ⟨hend, hendC, hendpost⟩ := hspent.resolve_left (by simp [hasset])
      have hendD : Free TOk_ENDTEMPLATE (closedAt X TOk_TEMPLATE arg Y) := by
        rw [hlooked.split] at hendC
        exact free_closedAt TOk_ENDTEMPLATE_token hendC
      have hnone : find TOk_ENDTEMPLATE
          (pre ++ (veiled (closedAt X TOk_TEMPLATE arg Y) ++ 64 :: post)) = none :=
        (find_eq_none_iff TOk_ENDTEMPLATE_token.head.ne_nil).mpr
          (around_free TOk_ENDTEMPLATE_beside hendD hend hendpost)
      dsimp only
      rw [template_body_eq, hnone]
      rfl

theorem template_step {D D' : Bytes} (hC0 : 0 ∉ C) (hC0' : 0 ∉ C')
    (hC : Endures S pre post C D) (hC' : Endures S pre post C' D') (hset : Setting S pre post)
    (hb : b.data = pre ++ (veiled C ++ 64 :: post))
    (hb' : b'.data = pre ++ (veiled C' ++ 64 :: post)) :
    OutcomeRel (Wrapped S pre post D D') (some (process_template K S b))
      (some (process_template K S b')) := by
  rcases token_cases TOk_TEMPLATE_token pre with hpre | ⟨X, rest, hpre, hX⟩
  · rcases token_cases TOk_TEMPLATE_token (64 :: post) with hpost | ⟨X, rest, hpost, hX⟩
    · obtain ⟨n, hn⟩ := template_inside K hC hpre hpost hb
      obtain ⟨n', hn'⟩ := template_inside K hC' hpre hpost hb'
      rw [hn, hn']
      exact .returned (Or.inr ⟨pre, _, .untouched hpre, rfl, rfl⟩)
    · have hother : ¬Free TOk_TEMPLATE (64 :: post) := fun hfree =>
        hfree.not_isInfix ⟨X, rest, by rw [hpost]; simp⟩
      obtain ⟨rfl, htemplate, hend⟩ := hC.kept_iff (Or.inr hother)
      obtain ⟨rfl, htemplate', hend'⟩ := hC'.kept_iff (Or.inr hother)
      have hfree : ∀ {C}, Free TOk_TEMPLATE C ∨ ¬Free TOk_TEMPLATE pre →
          Free TOk_TEMPLATE (pre ++ (veiled C ++ X)) := fun hC =>
        around_free TOk_TEMPLATE_beside (hC.resolve_right (not_not.mpr hpre)) hpre hX
      have hbehind : ¬(Wraps S pre ∨ Free TOk_TEMPLATE pre ∧ Wraps S (64 :: post)) →
          ¬Wraps S (64 :: post) := fun hnone hwraps => hnone (Or.inr ⟨hpre, hwraps⟩)
      exact template_behind (hend.imp_right (Or.imp_right hbehind))
        (hend'.imp_right (Or.imp_right hbehind)) hpre hX hpost (hfree htemplate)
        (hfree htemplate') hb hb'
  · have hother : ¬Free TOk_TEMPLATE pre := fun hfree =>
      hfree.not_isInfix ⟨X, rest, by rw [hpre]; simp⟩
    obtain ⟨rfl, _, hend⟩ := hC.kept_iff (Or.inl hother)
    obtain ⟨rfl, _, hend'⟩ := hC'.kept_iff (Or.inl hother)
    rcases follows rest with @⟨arg, Y, rfl, ha⟩ | @⟨arg, Y, rfl, ha⟩ | ha
    · have hlooked : LookedAt TOk_TEMPLATE pre X arg Y := ⟨hpre, hX, ha⟩
      by_cases hne : arg = []
      · subst hne
        have hassoc : ∀ Z, pre ++ Z = X ++ (TOk_TEMPLATE ++ TOk_CLOSE :: (Y ++ Z)) := by
          rw [hpre]
          simp
        rw [process_template_empty K hX (hb.trans (hassoc _)),
          process_template_empty K hX (hb'.trans (hassoc _))]
        exact .returned (Or.inr ⟨pre, _, .empty hlooked, hb, hb'⟩)
      · have hfront : ¬(Wraps S pre ∨ Free TOk_TEMPLATE pre ∧ Wraps S (64 :: post)) →
            ¬Wraps S pre := fun hnone hwraps => hnone (Or.inl hwraps)
        exact template_front hC0 hC0' (hend.imp_right (Or.imp_right hfront))
          (hend'.imp_right (Or.imp_right hfront)) hset hlooked hne hb hb'
    · exact absurd (by rw [hpre]; simp) hset.pre_clean
    · exact absurd (hset.closed X rest hpre hX) ha.open_

end Template

/-! ## The whole pipeline -/

def view (pre C post : Bytes) : Bytes :=
  pre ++ (TOk_COMMENT_OPEN ++ (C ++ (TOk_COMMENT_CLOSE ++ post)))

section Pipeline

variable {S : Symbols} {pre post C C' : Bytes}

theorem view_data (pre C post : Bytes) :
    (kore_buf_of (view pre C post)).data = pre ++ (veiled C ++ 64 :: post) := by
  rw [kore_buf_of_data, view, veiled_append]

/-- A view with a comment is not sent as it is. -/
theorem view_marked (K : Kore) (pre C post : Bytes) :
    ∃ i, kore_mem_find K (kore_buf_of (view pre C post)).data 0
      (kore_buf_of (view pre C post)).offset (bytes "@") = .ok (some i) := by
  rw [KoreBuf.offset, kore_mem_find_whole K _ (by decide)]
  cases hf : find (bytes "@") (kore_buf_of (view pre C post)).data with
  | some i => exact ⟨i, rfl⟩
  | none =>
    have hfree := ((find_eq_none_iff (by decide)).mp hf).not_isInfix
    have hat : bytes "@" = [64] := by decide
    have hmark : bytes "@" <:+: (kore_buf_of (view pre C post)).data :=
      ⟨pre ++ veiled C, post, by rw [view_data, hat]; simp⟩
    exact absurd hmark hfree

theorem view_passes_matches (K : Kore) (hset : Setting S pre post) (hC : Inert S pre post C)
    (hC' : Inert S pre post C') :
    Matches SameData (fun n => view_passes K S n (kore_buf_of (view pre C post)))
      fun n => view_passes K S n (kore_buf_of (view pre C' post)) := by
  obtain ⟨D, hD, hhidden⟩ := hC.endures
  obtain ⟨D', hD', hhidden'⟩ := hC'.endures
  have htemplate := template_step (K := K) hC.clean hC'.clean hD hD' hset (view_data pre C post)
    (view_data pre C' post)
  refine Matches.andThen (settles_const _) (fun c => (run_settles c).andThen run_settles)
    (.of_rel fun _ => htemplate) fun c c' hwrapped => ?_
  have hinclude : Matches Around (fun n => run (process_include_body K S) n c)
      fun n => run (process_include_body K S) n c' := by
    rcases hwrapped with hsame | ⟨P, Q, hleaves, hc, hc'⟩
    · refine .of_rel fun n => run_lockstep (R := SameData) (fun _ _ h => ?_) n hsame
      exact (substitute_same h).mono (fun _ _ => id) fun _ _ => Or.inl
    · exact include_matches K hhidden hhidden' ⟨P, Q, hset.sides P Q hleaves, hc, hc'⟩
  refine Matches.andThen (run_settles _) run_settles hinclude fun d d' haround => ?_
  exact .of_rel fun n => run_lockstep (fun _ _ => comment_step) n haround

theorem render_matches (K : Kore) (V : Surroundings) (hset : Setting S pre post)
    (hC : Inert S pre post C) (hC' : Inert S pre post C') :
    Matches Eq (fun n => render K S V n (view pre C post))
      fun n => render K S V n (view pre C' post) := by
  obtain ⟨i, hi⟩ := view_marked K pre C post
  obtain ⟨i', hi'⟩ := view_marked K pre C' post
  simp only [render, hi, hi']
  refine Matches.andThen (view_passes_settles K S _) (fun c => ?_)
    (view_passes_matches K hset hC hC') fun c c' hsame => .of_rel fun n => ?_
  · exact (request_passes_settles K S V c).andThen fun _ => settles_const _
  · rw [request_passes_same V n hsame]
    exact .refl (fun _ => rfl) _

/-- Two views that differ only in the body of one comment are rendered alike. -/
theorem comments_inert (K : Kore) (S : Symbols) (V : Surroundings) {pre post C C' : Bytes}
    (hset : Setting S pre post) (hC : Inert S pre post C) (hC' : Inert S pre post C')
    (r : CMemory.C Bytes) :
    (∃ n, render K S V n (view pre C post) = some r) ↔
      ∃ n, render K S V n (view pre C' post) = some r := by
  constructor
  · rintro ⟨n, hn⟩
    exact (render_matches K V hset hC hC').outcome hn
  · rintro ⟨n, hn⟩
    exact (render_matches K V hset hC' hC).outcome hn

/-- Text in which no directive begins with the `@` that ends the comment, however the includes
behind it are put in. -/
theorem steady_of_word {w : Bytes} (R : Bytes) (hhead : w.head? = some 64)
    (hword : ∀ i < w.length, ¬ w.drop i <+: TOk_INCLUDE) (hfree : Free TOk_INCLUDE w) :
    Steady S (w ++ R) := by
  intro Q hQ
  suffices hkeeps : w <+: Q by
    obtain ⟨R', rfl⟩ := hkeeps
    rw [List.head?_append, hhead]
    rfl
  induction hQ with
  | refl => exact List.prefix_append w R
  | @tail Q Q' _ hput ih =>
    cases hput with
    | @put X arg Y _ _ _ =>
      obtain ⟨R', hR'⟩ := ih
      rcases List.append_eq_append_iff.mp hR' with ⟨t, hX, _⟩ | ⟨t, hw, htoken⟩
      · exact ⟨t ++ (stead S arg ++ 0 :: Y), by rw [hX, List.append_assoc]⟩
      · -- the directive would begin in the word
        have hdrop : w.drop X.length = t := by rw [hw, List.drop_left]
        rcases List.prefix_or_prefix_of_prefix (List.prefix_append t R')
          (htoken ▸ List.prefix_append TOk_INCLUDE (arg ++ TOk_CLOSE :: Y)) with hpre | hpre
        · cases t with
          | nil => exact ⟨stead S arg ++ 0 :: Y, by rw [hw, List.append_nil]⟩
          | cons c t =>
            have hlt : X.length < w.length := by
              rw [hw]
              simp
            exact absurd (hdrop ▸ hpre) (hword X.length hlt)
        · exact absurd (show TOk_INCLUDE <+: w.drop X.length by rw [hdrop]; exact hpre)
            (hfree X.length)

private theorem not_marked {token X R : Bytes} (hpre : 64 ∉ pre) (h : pre = X ++ (token ++ R))
    (ht : 64 ∈ token) : False := by
  rw [h] at hpre
  exact hpre (List.mem_append_right _ (List.mem_append_left _ ht))

/-- In front of the comment there is no directive at all and behind it none of a template. -/
theorem setting_of_unmarked (hpre : 64 ∉ pre) (h0 : 0 ∉ pre) (hlast : ¬ [42, 47] <:+ pre)
    (hpost : 0 ∉ post) (hfree : Free TOk_TEMPLATE (64 :: post)) (hsteady : Steady S (64 :: post)) :
    Setting S pre post := by
  have hlooked : ∀ {X arg Y}, ¬LookedAt TOk_TEMPLATE pre X arg Y := fun h =>
    not_marked hpre h.split (by decide)
  have hputs : ∀ P', Relation.ReflTransGen (Puts S) pre P' → P' = pre := by
    intro P' hP'
    induction hP' with
    | refl => rfl
    | tail _ hput ih =>
      subst ih
      cases hput with
      | put _ _ _ => exact (not_marked hpre rfl (by decide)).elim
  have hcuts : ∀ P', Relation.ReflTransGen Cuts pre P' → P' = pre := by
    intro P' hP'
    induction hP' with
    | refl => rfl
    | tail _ hcut ih =>
      subst ih
      cases hcut with
      | cut hopen _ _ =>
        obtain ⟨X, R, hsplit, _⟩ := find_split TOk_COMMENT_OPEN_token.head.ne_nil hopen
        exact (not_marked hpre (hsplit.trans (List.append_assoc _ _ _)) (by decide)).elim
  have hside : Side S pre (64 :: post) := by
    refine ⟨fun P' hP' X rest hX _ => ?_, fun P' hP' P'' hP'' => ?_, hsteady⟩
    · rw [hputs P' hP'] at hX
      exact (not_marked hpre hX (by decide)).elim
    · rw [hputs P' hP'] at hP''
      rw [hcuts P'' hP'']
      exact hlast
  refine ⟨h0, hpost, fun X rest hX _ => (not_marked hpre hX (by decide)).elim,
    fun X arg Y h => (hlooked h).elim, fun P Q hleaves => ?_⟩
  cases hleaves with
  | untouched _ => exact hside
  | empty h => exact (hlooked h).elim
  | closed h _ => exact (hlooked h).elim
  | behind _ h _ => exact (h.not_free hfree).elim
  | layout h _ _ _ _ _ _ => exact (hlooked h).elim

end Pipeline

/-- One asset, `asset_a_html`. -/
def footer : Symbols where
  data name := if name = bytes "asset_a_html" then some (bytes "<hr>") else none
  vfunc _ := none
  vvar _ := none

theorem comments_inert_footer : ∃ n, render reference footer (request (bytes "/")) n
    (view (bytes "<p>") (bytes " @if(x) @include(a) @endtemplate ")
      (bytes "@/* b */@ @include(a)")) = some (.ok (bytes "<p> <hr>" ++ [0])) := by
  have hfree : Free TOk_TEMPLATE (64 :: bytes "@/* b */@ @include(a)") := by decide
  have hpre : Free TOk_TEMPLATE (bytes "<p>") := by decide
  have hsteady : Steady footer (64 :: bytes "@/* b */@ @include(a)") :=
    @steady_of_word footer [64, 64, 47] (bytes "* b */@ @include(a)") rfl (by decide) (by decide)
  have hset : Setting footer (bytes "<p>") (bytes "@/* b */@ @include(a)") :=
    setting_of_unmarked (by decide) (by decide) (by decide) (by decide) hfree hsteady
  have hother : ∃ n, render reference footer (request (bytes "/")) n
      (view (bytes "<p>") (bytes "@template(a)") (bytes "@/* b */@ @include(a)")) =
        some (.ok (bytes "<p> <hr>" ++ [0])) := ⟨3, by decide +kernel⟩
  refine (comments_inert reference footer (request (bytes "/")) hset ⟨by decide, ?_⟩
    ⟨by decide, ?_⟩ _).mpr hother
  · -- the end mark meets no template and the asset is put in
    refine ⟨_, .kept (Or.inl (by decide)) (Or.inr (Or.inr ?_)), by decide, ?_⟩
    · rintro (⟨X, arg, Y, h, _⟩ | ⟨_, X, arg, Y, h, _⟩)
      · exact h.not_free hpre
      · exact h.not_free hfree
    · refine ⟨bytes " @if(x) <hr>" ++ 0 :: bytes " @endtemplate ", ?_, by decide⟩
      exact @Expands.put footer (bytes " @if(x) ") (bytes "a") (bytes " @endtemplate ")
        (bytes "<hr>") _ (by decide) ⟨by decide, by decide⟩ (by decide) (by decide)
        (.done (by decide))
  · -- the template takes no body
    have hlooked : LookedAt TOk_TEMPLATE (bytes "@template(a)") [] (bytes "a") [] :=
      ⟨by decide, by decide, by decide, by decide⟩
    refine ⟨_, .closed hpre hfree hlooked (by decide)
      (Or.inr ⟨by decide, by decide, by decide⟩), by decide, ?_⟩
    exact ⟨_, .done (by decide), by decide⟩

/-- A directive in a comment that names a missing asset ends the include pass. -/
theorem comment_stops_includes : ¬ ∀ (K : Kore) (S : Symbols) (V : Surroundings)
    (pre post C C' : Bytes) (r : CMemory.C Bytes), Free TOk_COMMENT_CLOSE C →
      Free TOk_COMMENT_CLOSE C' → ((∃ n, render K S V n (view pre C post) = some r) ↔
        ∃ n, render K S V n (view pre C' post) = some r) := by
  intro hall
  have hput : render reference footer (request (bytes "/")) 3
      (view (bytes "<p>") (bytes "") (bytes " @include(a)")) =
        some (.ok (bytes "<p> <hr>" ++ [0])) := by decide +kernel
  have hstopped : render reference footer (request (bytes "/")) 3
      (view (bytes "<p>") (bytes "@include(b)") (bytes " @include(a)")) =
        some (.ok (bytes "<p> @include(a)")) := by decide +kernel
  obtain ⟨n, hn⟩ := (hall reference footer (request (bytes "/")) (bytes "<p>")
    (bytes " @include(a)") (bytes "@include(b)") (bytes "") (.ok (bytes "<p> <hr>" ++ [0]))
    (by decide) (by decide)).mpr ⟨3, hput⟩
  have hsame := (render_settles reference footer (request (bytes "/")) _).unique hn hstopped
  exact absurd hsame (by decide)

end ViewComments
