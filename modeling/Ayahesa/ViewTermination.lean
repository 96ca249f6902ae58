import Ayahesa.SplicedFragments
import Ayahesa.ViewSubstitution
import Mathlib.SetTheory.Ordinal.Rank

/-! # When the substituting passes end

A pass searches the texts it has put in again, so a text that leads back to itself keeps it going
for ever. Without such a text every round lowers the weight of the buffer. -/
namespace ViewTermination

open CMemory CompatStrings ByteSearch KoreApi KoreBuffer HttpRequest LoopIteration ViewPasses
open ViewDirectives ViewArguments ViewSubstitution SplicedFragments

def directive (token arg : Bytes) : Bytes := token ++ (arg ++ [TOk_CLOSE])

section Relation

variable (token : Bytes) (text : Bytes → ℕ → ℕ → C (Bytes × Option Bytes)) (base : Bytes)

/-- The pass can put this text in the place of a directive with this argument. -/
def Replaces (arg str : Bytes) : Prop :=
  ∃ X Y d', text (X ++ (token ++ (wiped arg ++ 0 :: Y))) (X.length + token.length + leading arg)
    arg.length = .ok (d', some str)

/-- The texts that chains of replacements lead to from `base`. A directive may be completed in
front of a text by a part of the token, an end of which stands in front of an `@` in a text. -/
inductive Shown : Bytes → Prop where
  | base : Shown base
  | whole {t arg str : Bytes} : Shown t → Plain arg → directive token arg <:+: t →
      Replaces token text arg str → Shown str
  | joined {t s v w arg str : Bytes} : Shown t → w <+: token → w ≠ token → v ≠ [] → v <:+ w →
      Shown s → (v ++ [64]) <:+: s → Plain arg → directive token arg <:+: w ++ t →
      Replaces token text arg str → Shown str

/-- A part of the token that may stand in front of an inserted text. -/
def Fronting (w : Bytes) : Prop :=
  w <+: token ∧ w ≠ token ∧
    ∃ v s, v ≠ [] ∧ v <:+ w ∧ Shown token text base s ∧ (v ++ [64]) <:+: s

/-- A directive that stands in `t`, or that a part of the token completes in front of it, can be
replaced by `str`. -/
def Yields (str t : Bytes) : Prop :=
  ∃ w arg, (w = [] ∨ Fronting token text base w) ∧ Plain arg ∧
    directive token arg <:+: w ++ t ∧ Replaces token text arg str

end Relation

variable {K : Kore} {token base : Bytes} {text : Bytes → ℕ → ℕ → C (Bytes × Option Bytes)}

theorem Shown.yields {t str : Bytes} (ht : Shown token text base t)
    (h : Yields token text base str t) : Shown token text base str := by
  obtain ⟨w, arg, rfl | ⟨hp, hn, v, s, hv, hvw, hs, hvs⟩, ha, hin, hstr⟩ := h
  · exact .whole ht ha hin hstr
  · exact .joined ht hp hn hv hvw hs hvs ha hin hstr

/-- No chain from a shown text goes on for ever if none from the base does. -/
theorem Shown.acc {t : Bytes} (h : Shown token text base t)
    (hacc : Acc (Yields token text base) base) : Acc (Yields token text base) t := by
  induction h with
  | base => exact hacc
  | whole _ ha hin hstr ih => exact ih.inv ⟨[], _, Or.inl rfl, ha, hin, hstr⟩
  | @joined _ s v w arg _ _ hp hn hv hvw hs hvs ha hin hstr ih _ =>
    exact ih.inv ⟨w, arg, Or.inr ⟨hp, hn, v, s, hv, hvw, hs, hvs⟩, ha, hin, hstr⟩

/-- The buffer as a row of fragments, up to blanks: in front of it no token is left, and the
first fragment is a whole text. -/
structure Row (token : Bytes) (text : Bytes → ℕ → ℕ → C (Bytes × Option Bytes)) (base : Bytes)
    (d before : Bytes) (frags : List (Fragment UInt8 Bytes)) (rest : Bytes) : Prop where
  blanks : Blanks 0 (before ++ flat 0 frags rest) d
  free : Free token (d.take before.length)
  texts : ∀ f ∈ frags, f.body <:+ f.origin ∧ Shown token text base f.origin
  lead : frags = [] → before = []
  whole : ∀ f fs, frags = f :: fs → f.body = f.origin
  tail : rest <:+ base
  fronts : ∀ w P Q, before ++ flat 0 frags rest = P ++ (w ++ 64 :: Q) → w ≠ [] → w <+: token →
    w ≠ token → Fronting token text base w
  front : ∀ w, w <:+ before → w ≠ [] → w <+: token → w ≠ token → Fronting token text base w

theorem row_start (token : Bytes) (text : Bytes → ℕ → ℕ → C (Bytes × Option Bytes))
    (hne : token ≠ []) (base : Bytes) : Row token text base base [] [] base where
  blanks := .refl 0 base
  free := free_nil hne
  texts := fun f hf => absurd hf List.not_mem_nil
  lead := fun _ => rfl
  whole := fun f fs h => by cases h
  tail := List.suffix_rfl
  fronts := by
    intro w P Q h hw hp hn
    refine ⟨hp, hn, w, base, hw, List.suffix_rfl, .base, P, Q, ?_⟩
    simpa [flat] using h.symm
  front := by
    intro w hw h0
    exact absurd (List.suffix_nil.mp hw) h0

section Round

variable {d before rest X Y str arg : Bytes} {frags : List (Fragment UInt8 Bytes)}

theorem directive_head (hmark : token.head? = some 64) (arg : Bytes) :
    ∃ D, directive token arg = 64 :: D := by
  obtain ⟨c, cs, rfl⟩ : ∃ c cs, token = c :: cs := by
    cases token with
    | nil => cases hmark
    | cons c cs => exact ⟨c, cs, rfl⟩
  obtain rfl : c = 64 := Option.some.inj hmark
  exact ⟨cs ++ (arg ++ [TOk_CLOSE]), rfl⟩

theorem directive_clean (ht : IsToken token) (ha : Plain arg) : 0 ∉ directive token arg := by
  simp only [directive, List.mem_append, List.mem_singleton, not_or]
  exact ⟨ht.clean, ha.clean, by decide⟩

/-- A part of the token in front of an `@` was there before the splice, or it ends in the text
that was put in. -/
theorem fronts_spliced (ht : IsToken token) (hmark : token.head? = some 64)
    (hfronts : ∀ w P Q, X ++ (directive token arg ++ Y) = P ++ (w ++ 64 :: Q) → w ≠ [] →
      w <+: token → w ≠ token → Fronting token text base w)
    (hstr : Shown token text base str) :
    ∀ w P Q, X ++ (str ++ 0 :: Y) = P ++ (w ++ 64 :: Q) → w ≠ [] → w <+: token → w ≠ token →
      Fronting token text base w := by
  intro w P Q h hw hp hn
  obtain ⟨D, hD⟩ := directive_head hmark arg
  have hclean : 0 ∉ w ++ [64] := by
    simp only [List.mem_append, List.mem_singleton, not_or]
    exact ⟨fun h0 => ht.clean (hp.subset h0), by decide⟩
  rw [← List.append_assoc, show w ++ 64 :: Q = (w ++ [64]) ++ Q by simp] at h
  rcases beside hclean (by simp) h with ⟨m, hm, _⟩ | ⟨m, hm, _⟩
  · rcases divide hm with ⟨l, hl⟩ | ⟨l, hl, _⟩ | ⟨v, u, hu, hvu, hX, hl⟩
    · exact hfronts w P (l ++ (directive token arg ++ Y)) (by rw [hl]; simp) hw hp hn
    · exact ⟨hp, hn, w, str, hw, List.suffix_rfl, hstr, l, m, by rw [hl]; simp⟩
    · -- the part begins in front of the text
      rcases List.eq_nil_or_concat' u with rfl | ⟨u, c, rfl⟩
      · exact absurd rfl hu
      · rw [← List.append_assoc] at hvu
        obtain ⟨rfl, hc⟩ := List.append_inj' hvu rfl
        obtain rfl := (List.cons.inj hc).1
        by_cases hu0 : u = []
        · subst hu0
          rw [List.append_nil] at hw hp hn ⊢
          exact hfronts v P (D ++ Y) (by rw [hX, hD]; simp) hw hp hn
        · exact ⟨hp, hn, u, str, hu0, List.suffix_append _ _, hstr, [], m,
            by rw [hl]; simp⟩
  · refine hfronts w (X ++ (directive token arg ++ m)) Q ?_ hw hp hn
    rw [hm]
    simp

/-- A token ends behind the part that was searched before. -/
theorem Row.token_behind {right : Bytes} (hrow : Row token text base d before frags rest)
    (hd : d = X ++ (token ++ right)) : before.length < X.length + token.length := by
  by_contra hle
  have hp : X ++ token <+: d.take before.length := by
    rw [List.prefix_take_iff, List.length_append, hd, ← List.append_assoc]
    exact ⟨List.prefix_append _ _, not_lt.mp hle⟩
  exact hrow.free.not_isInfix ((List.suffix_append X token).isInfix.trans hp.isInfix)

theorem row_spliced {X' Y' b' : Bytes} {frags' : List (Fragment UInt8 Bytes)} {rest' : Bytes}
    (ht : IsToken token) (hmark : token.head? = some 64)
    (hrow : Row token text base d before frags rest)
    (hflat : before ++ flat 0 frags rest = X ++ (directive token arg ++ Y))
    (hX : Blanks 0 X X') (hY : Blanks 0 Y Y') (hfree : Free token X')
    (hstr : Shown token text base str) (hb' : b' = X' ++ (str ++ 0 :: Y'))
    (hrest : flat 0 frags' rest' = Y) (htail : rest' <:+ base)
    (htexts : ∀ f ∈ frags', f.body <:+ f.origin ∧ Shown token text base f.origin) :
    Row token text base b' X (⟨str, str⟩ :: frags') rest' where
  blanks := by
    rw [hb', flat, hrest]
    exact hX.append ((Blanks.refl 0 str).append ((Blanks.refl 0 [0]).append hY))
  free := by
    rw [hb', ← hX.length, List.take_left]
    exact hfree
  texts := List.forall_mem_cons.mpr ⟨⟨List.suffix_rfl, hstr⟩, htexts⟩
  lead := fun h => absurd h (List.cons_ne_nil _ _)
  whole := by
    intro f fs h
    rw [← (List.cons.inj h).1]
  tail := htail
  fronts := by
    rw [flat, hrest]
    have hfronts := hrow.fronts
    rw [hflat] at hfronts
    exact fronts_spliced ht hmark hfronts hstr
  front := by
    rintro w ⟨P, rfl⟩ hw hp hn
    obtain ⟨D, hD⟩ := directive_head hmark arg
    exact hrow.fronts w P (D ++ Y) (by rw [hflat, hD]; simp) hw hp hn

theorem Row.texts_cut (skipped : List (Fragment UInt8 Bytes))
    {fs : List (Fragment UInt8 Bytes)} {f : Fragment UInt8 Bytes} {y : Bytes}
    (hrow : Row token text base d before (skipped ++ f :: fs) rest)
    (hy : y <:+ f.body) : ∀ g ∈ ⟨f.origin, y⟩ :: fs,
      g.body <:+ g.origin ∧ Shown token text base g.origin := by
  obtain ⟨hbody, hshown⟩ := hrow.texts f (by simp)
  refine List.forall_mem_cons.mpr ⟨⟨hy.trans hbody, hshown⟩, ?_⟩
  intro g hg
  exact hrow.texts g (by simp [hg])

theorem Row.yields_within {skipped fs : List (Fragment UInt8 Bytes)} {f : Fragment UInt8 Bytes}
    (hrow : Row token text base d before (skipped ++ f :: fs) rest) (ha : Plain arg)
    (hin : directive token arg <:+: f.body) (hstr : Replaces token text arg str) :
    Yields token text base str f.origin := by
  obtain ⟨hbody, _⟩ := hrow.texts f (by simp)
  exact ⟨[], arg, Or.inl rfl, ha, hin.trans hbody.isInfix, hstr⟩

/-- The replaced directive begins in front of the text of `f`: a part of the token stands there. -/
theorem Row.yields_across {fs : List (Fragment UInt8 Bytes)} {f : Fragment UInt8 Bytes}
    {w y : Bytes} (hrow : Row token text base d before (f :: fs) rest) (ha : Plain arg)
    (hlen : before.length < (X ++ token).length) (hbefore : before = X ++ w)
    (hword : w ++ f.body = directive token arg ++ y) (hstr : Replaces token text arg str) :
    Yields token text base str f.origin := by
  have hwlen : w.length < token.length := by
    rw [hbefore, List.length_append, List.length_append] at hlen
    omega
  have hall : w <+: token ++ (arg ++ [TOk_CLOSE] ++ y) :=
    ⟨f.body, by rw [hword]; simp [directive]⟩
  have hp : w <+: token :=
    List.prefix_of_prefix_length_le hall (List.prefix_append _ _) hwlen.le
  have hfront : w = [] ∨ Fronting token text base w := by
    by_cases hw : w = []
    · exact Or.inl hw
    · refine Or.inr (hrow.front w ⟨X, hbefore.symm⟩ hw hp ?_)
      rintro rfl
      exact absurd hwlen (lt_irrefl _)
  refine ⟨w, arg, hfront, ha, ⟨[], y, ?_⟩, hstr⟩
  rw [← hrow.whole f fs rfl, hword, List.nil_append]

end Round

/-- A round that goes on leaves a row of smaller weight. -/
theorem row_next {ρ : Type*} [Preorder ρ] {rank : Bytes → ρ} {b b' : KoreBuf} {before rest : Bytes}
    {frags : List (Fragment UInt8 Bytes)} (ht : IsToken token) (hmark : token.head? = some 64)
    (hblank : Blanking text)
    (hrank : ∀ str t, Shown token text base t → Yields token text base str t → rank str < rank t)
    (hrow : Row token text base b.data before frags rest)
    (h : substitute K token text b = .ok (.next b')) :
    ∃ before' frags' rest', Row token text base b'.data before' frags' rest' ∧
      (weight rank frags' rest').IsDershowitzMannaLT (weight rank frags rest) := by
  cases substitute_round ht hblank h with
  | @replaced X' arg Y₁ Y' d' str _ hs hX' ha htext hY' hb' =>
    have hstr : Replaces token text arg str := ⟨X', Y₁, d', htext⟩
    have hclean := directive_clean ht ha
    have hne : directive token arg ≠ [] := by simp [directive]
    have hdata : b.data = X' ++ (directive token arg ++ Y₁) := by rw [hs]; simp [directive]
    have hblanks := hrow.blanks
    rw [hdata] at hblanks
    obtain ⟨X, Z, hflat, hX, hZ⟩ := hblanks.split
    obtain ⟨D, Y, rfl, hD, hY⟩ := hZ.split
    obtain rfl := hD.eq_of_clean hclean
    have hspliced : ∀ frags' rest', Shown token text base str → flat 0 frags' rest' = Y →
        rest' <:+ base → (∀ f ∈ frags', f.body <:+ f.origin ∧ Shown token text base f.origin) →
        Row token text base b'.data X (⟨str, str⟩ :: frags') rest' := fun _ _ hshown =>
      row_spliced ht hmark hrow hflat hX (hY.trans hY') hX' hshown hb'
    -- the token is not in front of the row, so its directive ends in it
    have hlen : before.length < (X ++ token).length := by
      rw [List.length_append, ← hX.length]
      exact hrow.token_behind hs
    have hlen' : before.length < (X ++ directive token arg).length := by
      simp only [directive, List.length_append] at hlen ⊢
      omega
    cases locate hclean hne hflat hlen' with
    | @within skipped fs f y hfrags hbehind hsuffix hshort hword =>
      subst hfrags
      have hyield := hrow.yields_within ha hword hstr
      have hshown := (hrow.texts f (by simp)).2
      exact ⟨X, _, _, hspliced (⟨f.origin, y⟩ :: fs) rest (hshown.yields hyield) hbehind.symm
        hrow.tail (Row.texts_cut skipped hrow hsuffix),
        weight_within rank skipped hshort (hrank _ _ hshown hyield)⟩
    | @across fs f w y hfrags hbehind hsuffix hshort hbefore hword =>
      subst hfrags
      have hyield := hrow.yields_across ha hlen hbefore hword hstr
      have htexts := Row.texts_cut [] hrow hsuffix
      have hshown := (hrow.texts f (by simp)).2
      exact ⟨X, _, _, hspliced (⟨f.origin, y⟩ :: fs) rest (hshown.yields hyield) hbehind.symm
        hrow.tail htexts, weight_within rank [] hshort (hrank _ _ hshown hyield)⟩
    | rest hsuffix hshort hword =>
      have hin : directive token arg <:+: rest := by
        apply hword
        by_cases hfrags : frags = []
        · exact Or.inl (hrow.lead hfrags)
        · exact Or.inr hfrags
      have hshown : Shown token text base str :=
        .whole .base ha (hin.trans hrow.tail.isInfix) hstr
      exact ⟨X, _, _, hspliced [] Y hshown rfl (hsuffix.trans hrow.tail)
        fun f hf => absurd hf List.not_mem_nil, weight_rest rank hshort⟩

noncomputable def chain_rank (token : Bytes) (text : Bytes → ℕ → ℕ → C (Bytes × Option Bytes))
    (base t : Bytes) : Ordinal :=
  open Classical in if h : Acc (Yields token text base) t then h.rank else 0

theorem chain_rank_lt (hacc : Acc (Yields token text base) base) {str t : Bytes}
    (ht : Shown token text base t) (h : Yields token text base str t) :
    chain_rank token text base str < chain_rank token text base t := by
  have hacct := ht.acc hacc
  rw [chain_rank, chain_rank, dif_pos hacct, dif_pos (hacct.inv h)]
  exact hacct.rank_lt_of_rel h

theorem substitute_ends (ht : IsToken token) (hmark : token.head? = some 64)
    (hblank : Blanking text) (b : KoreBuf) (hacc : Acc (Yields token text b.data) b.data) :
    Ends (substitute K token text) b := by
  refine ends_of_measure (Multiset.wellFounded_isDershowitzMannaLT (α := WithTop Ordinal))
    (fun s m => ∃ before frags rest, Row token text b.data s.data before frags rest ∧
      m = weight (chain_rank token text b.data) frags rest) ?_
    ⟨[], [], b.data, row_start token text ht.head.ne_nil b.data, rfl⟩
  rintro s m t ⟨before, frags, rest, hrow, rfl⟩ h
  obtain ⟨before', frags', rest', hrow', hlt⟩ := row_next ht hmark hblank
    (fun _ _ => chain_rank_lt hacc) hrow h
  exact ⟨_, hlt, before', frags', rest', hrow', rfl⟩

/-- Each of the three passes ends on every buffer, asset table, set of view functions and session
tree if no chain of replacements goes on for ever from the text in the buffer. -/
theorem passes_end (K : Kore) (S : Symbols) (session : AppTree) (b : KoreBuf) :
    (Acc (Yields TOk_INCLUDE (named_text (include_asset S)) b.data) b.data →
      Ends (process_include_body K S) b) ∧
    (Acc (Yields TOk_FUNCTION (function_text S) b.data) b.data →
      Ends (process_function_body K S) b) ∧
    (Acc (Yields TOk_USER_VAR (named_text fun name => some (session_value session name)) b.data)
      b.data → Ends (process_user_vars_body K session) b) :=
  ⟨substitute_ends TOk_INCLUDE_token rfl (named_text_blanking _) b,
    substitute_ends TOk_FUNCTION_token rfl (function_text_blanking S) b,
    substitute_ends TOk_USER_VAR_token rfl (named_text_blanking _) b⟩

theorem yields_close (ht : IsToken token) {str t : Bytes} (h : Yields token text base str t) :
    TOk_CLOSE ∈ t := by
  obtain ⟨w, arg, hw, _, hinfix, _⟩ := h
  have hmem : TOk_CLOSE ∈ w ++ t := hinfix.subset (by simp [directive])
  rcases List.mem_append.mp hmem with hm | hm
  · rcases hw with rfl | hw
    · exact absurd hm List.not_mem_nil
    · exact absurd (hw.1.subset hm) ht.open_
  · exact hm

theorem acc_of_unclosed (ht : IsToken token)
    (h : ∀ str, Yields token text base str base → TOk_CLOSE ∉ str) :
    Acc (Yields token text base) base :=
  ⟨base, fun str hstr => ⟨str, fun _ hu => absurd (yields_close ht hu) (h str hstr)⟩⟩

theorem named_text_replaces {lookup : Bytes → Option Bytes} {arg str : Bytes}
    (h : Replaces token (named_text lookup) arg str) : ∃ name, lookup name = some str := by
  obtain ⟨X, Y, d', h⟩ := h
  obtain ⟨name, _, h⟩ := bind_ok h
  exact ⟨name, (Prod.mk.inj (Except.ok.inj h)).2⟩

/-- One asset, `asset_a_html`. -/
def oneAsset (content : Bytes) : Symbols where
  data name := if name = bytes "asset_a_html" then some content else none
  vfunc _ := none
  vvar _ := none

theorem include_oneAsset {content name str : Bytes}
    (h : include_asset (oneAsset content) name = some str) : str = c_string content := by
  simp only [include_asset, oneAsset] at h
  split at h
  · exact (Option.some.inj h).symm
  · cases h

/-- An asset with an open directive, put in twice, and an asset that includes itself, which the
text does not lead to. -/
theorem passes_end_plain :
    Ends (process_include_body reference (oneAsset (bytes "<b>@include(</b>")))
      (kore_buf_of (bytes "@include(a) @include@include(a)")) ∧
    Ends (process_include_body reference (oneAsset (bytes "@include(a)")))
      (kore_buf_of (bytes "hello @include(a")) := by
  constructor
  · refine (passes_end reference (oneAsset (bytes "<b>@include(</b>")) ⟨[]⟩
      (kore_buf_of (bytes "@include(a) @include@include(a)"))).1
      (acc_of_unclosed TOk_INCLUDE_token fun str h => ?_)
    obtain ⟨_, arg, _, _, _, hreplaces⟩ := h
    obtain ⟨name, hname⟩ := named_text_replaces hreplaces
    rw [include_oneAsset hname]
    decide
  · refine (passes_end reference (oneAsset (bytes "@include(a)")) ⟨[]⟩
      (kore_buf_of (bytes "hello @include(a"))).1
      (acc_of_unclosed TOk_INCLUDE_token fun str h => ?_)
    exact absurd (yields_close TOk_INCLUDE_token h) (by decide)

/-- An asset that includes itself is put in again and again. -/
theorem self_include_runs_on : ¬ ∀ (K : Kore) (S : Symbols) (b : KoreBuf),
    Ends (process_include_body K S) b := by
  intro hall
  have hasset : include_asset (oneAsset (bytes "@include(a)")) (trimmed (bytes "a")) =
      some (bytes "@include(a)") := by decide +kernel
  refine not_ends_of_invariant (fun b => ∃ Y, b.data = bytes "@include(a)" ++ Y) ?_ ⟨[], rfl⟩
    (hall reference (oneAsset (bytes "@include(a)")) (kore_buf_of (bytes "@include(a)")))
  rintro b ⟨Y, hb⟩
  have hb' : b.data = [] ++ (TOk_INCLUDE ++ (bytes "a" ++ TOk_CLOSE :: Y)) := hb
  have hround := named_text_at reference (include_asset (oneAsset (bytes "@include(a)")))
    TOk_INCLUDE_token ⟨by decide, by decide⟩ (by decide) (free_nil (by decide)) hb'
  rw [hasset] at hround
  exact ⟨_, hround, 0 :: Y, rfl⟩

end ViewTermination
