import Ayahesa.ViewArguments

/-! # Substitution of directives

A round of a substituting pass cuts the token and the argument out of the buffer, but the
NUL that replaced the closing bracket stays behind the inserted text. -/
namespace ViewSubstitution

open CMemory CompatStrings ByteSearch KoreApi KoreBuffer HttpRequest LoopIteration ViewPasses
open ViewDirectives ViewArguments

variable {K : Kore} {b b' : KoreBuf} {token : Bytes}
  {text : Bytes → ℕ → ℕ → C (Bytes × Option Bytes)}

theorem spliced {X arg Y d' : Bytes} (len : ℕ) (str : Bytes)
    (hb : Blanks (X.length + token.length + leading arg)
      (X ++ (token ++ (wiped arg ++ 0 :: Y))) d') :
    ∃ Y', Blanks 0 Y Y' ∧ ∃ n,
      aya_buf_replace_string ⟨d', len⟩ X.length (token.length + arg.length) str =
        .ok ⟨X ++ (str ++ 0 :: Y'), n⟩ := by
  have htake : d'.take X.length = X := by
    rw [hb.take (by omega), List.take_left]
  have hdrop := hb.drop (X.length + token.length + arg.length)
  have hD : (X ++ (token ++ (wiped arg ++ 0 :: Y))).drop
      (X.length + token.length + arg.length) = 0 :: Y := by
    rw [← List.append_assoc, ← List.append_assoc]
    exact List.drop_left' (by simp only [List.length_append, wiped_length])
  rw [hD] at hdrop
  obtain ⟨Y', hY', hblank⟩ := hdrop.cons_zero
  have hlen := hb.length
  simp only [List.length_append, List.length_cons, wiped_length] at hlen
  have hcut : d' = X ++ ((d'.drop X.length).take (token.length + arg.length) ++ 0 :: Y') := by
    have hsplit := List.take_append_drop X.length d'
    have hmid := List.take_append_drop (token.length + arg.length) (d'.drop X.length)
    rw [List.drop_drop, ← Nat.add_assoc, hY'] at hmid
    rw [hmid]
    nth_rewrite 1 [← htake]
    exact hsplit.symm
  refine ⟨Y', hblank, _, replace_string_at str hcut rfl ?_⟩
  simp only [List.length_take, List.length_drop]
  omega

inductive Round (b : KoreBuf) (token : Bytes)
    (text : Bytes → ℕ → ℕ → C (Bytes × Option Bytes)) : Step KoreBuf → Prop where
  | unchanged : Round b token text (.done b)
  /-- Without a text the pass returns with the argument closed. -/
  | refused {X arg Y d' : Bytes} {b' : KoreBuf} :
      b.data = X ++ (token ++ (arg ++ TOk_CLOSE :: Y)) → Free token X → Plain arg →
      text (X ++ (token ++ (wiped arg ++ 0 :: Y))) (X.length + token.length + leading arg)
        arg.length = .ok (d', none) → b'.data = d' → Round b token text (.done b')
  | replaced {X arg Y Y' d' str : Bytes} {b' : KoreBuf} :
      b.data = X ++ (token ++ (arg ++ TOk_CLOSE :: Y)) → Free token X → Plain arg →
      text (X ++ (token ++ (wiped arg ++ 0 :: Y))) (X.length + token.length + leading arg)
        arg.length = .ok (d', some str) → Blanks 0 Y Y' → b'.data = X ++ (str ++ 0 :: Y') →
      Round b token text (.next b')

theorem substitute_round (ht : IsToken token) (hblank : Blanking text) {st : Step KoreBuf}
    (h : substitute K token text b = .ok st) : Round b token text st := by
  rcases token_cases ht b.data with hfree | ⟨X, rest, hs, hX⟩
  · rw [substitute_free K ht hfree] at h
    rw [← Except.ok.inj h]
    exact .unchanged
  · rcases follows rest with @⟨arg, Y, rfl, ha⟩ | ⟨rfl, ha⟩ | ha
    · by_cases hne : arg = []
      · subst hne
        rw [substitute_empty K ht hX hs] at h
        rw [← Except.ok.inj h]
        exact .unchanged
      · rw [substitute_at K ht ha hne hX hs] at h
        obtain ⟨⟨d', str⟩, htext, h⟩ := bind_ok h
        cases str with
        | none =>
          rw [← Except.ok.inj h]
          exact .refused hs hX ha htext rfl
        | some str =>
          obtain ⟨b₁, hcut, h⟩ := bind_ok h
          obtain ⟨Y', hY', n, hsplice⟩ := spliced b.length str
            (hblank _ _ _ _ _ htext)
          rw [← Except.ok.inj h, ← Except.ok.inj (hsplice.symm.trans hcut)]
          exact .replaced hs hX ha htext hY' rfl
    · rw [substitute_cut K ht ha hX hs] at h
      rw [← Except.ok.inj h]
      exact .unchanged
    · rw [substitute_open K ht ha hX hs] at h
      cases h

/-- A round that goes on leaves a NUL in the buffer. -/
theorem next_nul (ht : IsToken token) (hblank : Blanking text)
    (h : substitute K token text b = .ok (.next b')) : 0 ∈ b'.data := by
  cases substitute_round ht hblank h with
  | replaced _ _ _ _ _ hb' => simp [hb']

theorem refused_nul {X arg Y d' : Bytes} {p : ℕ}
    (h : Blanks p (X ++ (token ++ (wiped arg ++ 0 :: Y))) d') : 0 ∈ d' := by
  have hD : (X ++ (token ++ (wiped arg ++ 0 :: Y)))[X.length + token.length + arg.length]? =
      some 0 := by
    rw [← List.append_assoc, ← List.append_assoc,
      List.getElem?_append_right (by simp [Nat.add_assoc])]
    simp [Nat.add_assoc]
  rcases h.byte _ 0 hD with hk | ⟨_, hk, _⟩
  · exact List.mem_of_getElem? hk
  · exact List.mem_of_getElem? hk

theorem done_nul (ht : IsToken token) (hblank : Blanking text) (h0 : 0 ∈ b.data)
    (h : substitute K token text b = .ok (.done b')) : 0 ∈ b'.data := by
  cases substitute_round ht hblank h with
  | unchanged => exact h0
  | refused _ _ _ htext hb' =>
    rw [hb']
    exact refused_nul (hblank _ _ _ _ _ htext)

theorem returns_nul (ht : IsToken token) (hblank : Blanking text) (h0 : 0 ∈ b.data)
    (h : Returns (substitute K token text) b b') : 0 ∈ b'.data :=
  h.invariant (fun _ _ _ hs => next_nul ht hblank hs) (fun _ _ h0 hs => done_nul ht hblank h0 hs) h0

theorem returns_nul_of_directive {X arg Y : Bytes} (ht : IsToken token) (hblank : Blanking text)
    (hs : b.data = X ++ (token ++ (arg ++ TOk_CLOSE :: Y))) (hX : Free token X) (ha : Plain arg)
    (hne : arg ≠ []) (h : Returns (substitute K token text) b b') : 0 ∈ b'.data := by
  rcases h.cases with hdone | ⟨u, hnext, hu⟩
  · rw [substitute_at K ht ha hne hX hs] at hdone
    obtain ⟨⟨d', str⟩, htext, hdone⟩ := bind_ok hdone
    cases str with
    | none =>
      obtain rfl : (⟨d', b.length⟩ : KoreBuf) = b' := by simpa using Except.ok.inj hdone
      exact refused_nul (hblank _ _ _ _ _ htext)
    | some str =>
      obtain ⟨_, _, hdone⟩ := bind_ok hdone
      cases hdone
  · exact returns_nul ht hblank (next_nul ht hblank hnext) hu

/-! ## Templates made of text and directives -/

/-- Texts and arguments in turn, then a last text. The texts hold no token, every argument
names something, and no byte is NUL. -/
structure Template (token : Bytes) where
  blocks : List (Bytes × Bytes)
  tail : Bytes
  text_free : ∀ p ∈ blocks, Free token p.1
  tail_free : Free token tail
  text_clean : ∀ p ∈ blocks, 0 ∉ p.1
  tail_clean : 0 ∉ tail
  name_plain : ∀ p ∈ blocks, Plain p.2
  name_ne_nil : ∀ p ∈ blocks, trimmed p.2 ≠ []

def Template.source {token : Bytes} (T : Template token) : Bytes :=
  (T.blocks.flatMap fun p => p.1 ++ token ++ p.2 ++ [TOk_CLOSE]) ++ T.tail

/-- The template with every directive, bracket included, replaced by the value of its name. -/
def Template.expanded {token : Bytes} (T : Template token) (value : Bytes → Bytes) : Bytes :=
  (T.blocks.flatMap fun p => p.1 ++ value (trimmed p.2)) ++ T.tail

def Exact (body : KoreBuf → C (Step KoreBuf)) {token : Bytes} (T : Template token)
    (value : Bytes → Bytes) : Prop :=
  ∃ b', Returns body (kore_buf_of T.source) b' ∧ b'.data = T.expanded value

theorem Template.expanded_clean (T : Template token) {value : Bytes → Bytes}
    (hv : ∀ n, 0 ∉ value n) : 0 ∉ T.expanded value := by
  simp only [Template.expanded, List.mem_append, List.mem_flatMap, not_or, not_exists, not_and]
  exact ⟨fun p hp => ⟨T.text_clean p hp, hv _⟩, T.tail_clean⟩

theorem exact_iff (ht : IsToken token) (hblank : Blanking text) (T : Template token)
    {value : Bytes → Bytes} (hv : ∀ n, 0 ∉ value n) :
    Exact (substitute K token text) T value ↔ T.blocks = [] := by
  constructor
  · rintro ⟨b', hret, hb'⟩
    rcases hblocks : T.blocks with _ | ⟨⟨X, arg⟩, more⟩
    · rfl
    · have hmem : (X, arg) ∈ T.blocks := by simp [hblocks]
      have hne : arg ≠ [] := by
        rintro rfl
        exact T.name_ne_nil _ hmem rfl
      have hsplit : (kore_buf_of T.source).data = X ++ (token ++ (arg ++ TOk_CLOSE ::
          ((more.flatMap fun p => p.1 ++ token ++ p.2 ++ [TOk_CLOSE]) ++ T.tail))) := by
        simp [Template.source, hblocks]
      have hnul := returns_nul_of_directive ht hblank hsplit (T.text_free _ hmem)
        (T.name_plain _ hmem) hne hret
      rw [hb'] at hnul
      exact absurd hnul (T.expanded_clean hv)
  · intro hblocks
    have hsource : T.source = T.tail := by simp [Template.source, hblocks]
    refine ⟨kore_buf_of T.source, .of_done (substitute_free K ht ?_), ?_⟩
    · rw [kore_buf_of_data, hsource]
      exact T.tail_free
    · rw [kore_buf_of_data, hsource]
      simp [Template.expanded, hblocks]

/-- The arguments that a function directive names: the pieces between commas, trimmed. -/
def arguments (name : Bytes) : List Bytes := (name.splitOn comma).map trimmed

theorem include_asset_clean (S : Symbols) (name : Bytes) : 0 ∉ (include_asset S name).getD [] := by
  unfold include_asset
  cases S.data ((bytes "asset_" ++ name ++ bytes "_html").take 63) with
  | none => simp
  | some text => simpa using c_string_clean text

theorem call_vfunc_clean (S : Symbols) (argv : List Bytes) : 0 ∉ (call_vfunc S argv).getD [] := by
  unfold call_vfunc
  cases S.vfunc (argv.headD []) with
  | none => simp
  | some vfunc =>
    cases hv : vfunc argv with
    | none => simp [hv]
    | some text => simpa [hv] using c_string_clean text

/-- Each of the three passes yields the template with its directives replaced, and nothing else,
exactly when the template has no directive: every directive leaves a NUL. -/
theorem directive_substitution (K : Kore) (S : Symbols) (session : AppTree)
    (T : Template TOk_USER_VAR) (U : Template TOk_INCLUDE) (V : Template TOk_FUNCTION) :
    (Exact (process_user_vars_body K session) T (session_value session) ↔ T.blocks = []) ∧
    (Exact (process_include_body K S) U (fun n => (include_asset S n).getD []) ↔
      U.blocks = []) ∧
    (Exact (process_function_body K S) V (fun n => (call_vfunc S (arguments n)).getD []) ↔
      V.blocks = []) :=
  ⟨exact_iff TOk_USER_VAR_token (named_text_blanking _) T fun _ => c_string_clean _,
    exact_iff TOk_INCLUDE_token (named_text_blanking _) U (include_asset_clean S),
    exact_iff TOk_FUNCTION_token (function_text_blanking S) V fun n =>
      call_vfunc_clean S (arguments n)⟩

/-- `<p>@var( a )</p>` -/
def greeting : Template TOk_USER_VAR where
  blocks := [(bytes "<p>", bytes " a ")]
  tail := bytes "</p>"
  text_free := by
    intro p hp
    obtain rfl := List.mem_singleton.mp hp
    decide
  tail_free := by decide
  text_clean := by decide
  tail_clean := by decide
  name_plain := by
    intro p hp
    obtain rfl := List.mem_singleton.mp hp
    exact ⟨by decide, by decide⟩
  name_ne_nil := by decide

/-- The value is inserted with a NUL behind it. -/
theorem greeting_not_exact :
    ¬ ∀ (K : Kore) (session : AppTree) (T : Template TOk_USER_VAR),
      Exact (process_user_vars_body K session) T (session_value session) := by
  intro hall
  obtain ⟨b', hret, hb'⟩ := hall reference ⟨[some ⟨bytes "a", .T_STRING (bytes "Bob")⟩]⟩ greeting
  have hrun : Returns
      (process_user_vars_body reference ⟨[some ⟨bytes "a", .T_STRING (bytes "Bob")⟩]⟩)
      (kore_buf_of greeting.source) ⟨bytes "<p>Bob" ++ [0] ++ bytes "</p>", 19⟩ :=
    ⟨2, by decide +kernel⟩
  rw [hret.unique hrun] at hb'
  exact absurd hb' (by decide +kernel)

end ViewSubstitution
