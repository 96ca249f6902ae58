import Ayahesa.AbsentStrings

/-! # The passes in all the memory of a buffer

What a pass returns when its pointers reach the used bytes only it returns over the whole block as
well, whatever the allocator left behind the used bytes. -/
namespace AllocatedPasses

open CMemory CompatStrings KoreApi KoreBuffer ByteSearch HttpRequest LoopIteration ViewPasses
open HttpView ViewPredefined RequestView AllocatedBuffer
open AbsentStrings (site visit)

/-! ## Regions -/

/-- The second region goes on behind the first, which is `n` bytes long. -/
structure Widens (n : ℕ) (d d' : Bytes) : Prop where
  ahead : d <+: d'
  length : d.length = n

/-- What a pass knows of a region and of something found in it. -/
def Pointed {γ : Type} (n : ℕ) (p p' : Bytes × γ) : Prop := Widens n p.1 p'.1 ∧ p.2 = p'.2

theorem scan_widened {stop : UInt8 → Bool} {d d' : Bytes} (h : d <+: d') :
    Carries Eq (scan stop d) (scan stop d') := by
  intro k hk
  obtain ⟨slack, rfl⟩ := h
  obtain ⟨left, z, right, rfl, rfl, hl, hz⟩ := scan_ok hk
  refine ⟨left.length, ?_, rfl⟩
  rw [List.append_assoc, List.cons_append]
  exact scan_hit (right ++ slack) hl hz

section Regions

variable {n : ℕ} {d d' : Bytes}

theorem Widens.get (h : Widens n d d') {i : ℕ} (hi : i < d.length) : d'[i]? = d[i]? := by
  obtain ⟨slack, rfl⟩ := h.ahead
  exact List.getElem?_append_left hi

theorem Widens.load (h : Widens n d d') (i : ℕ) :
    Carries Eq (CMemory.load d i) (CMemory.load d' i) := by
  intro v hv
  have hget := get_of_load hv
  obtain ⟨hi, -⟩ := List.getElem?_eq_some_iff.mp hget
  exact ⟨v, load_of_get ((h.get hi).trans hget), rfl⟩

theorem Widens.store (h : Widens n d d') (i : ℕ) (v : UInt8) :
    Carries (Widens n) (CMemory.store d i v) (CMemory.store d' i v) := by
  intro e he
  obtain ⟨hi, -⟩ := store_ok he
  obtain ⟨⟨slack, rfl⟩, hlen⟩ := h
  obtain rfl : d.set i v = e := by
    rw [CMemory.store, if_pos hi] at he
    exact Except.ok.inj he
  refine ⟨(d ++ slack).set i v, if_pos ?_, ?_, ?_⟩
  · rw [List.length_append]
    omega
  · rw [List.set_append_left _ _ hi]
    exact List.prefix_append _ _
  · rw [List.length_set]
    exact hlen

theorem Widens.cstr (h : Widens n d d') (i : ℕ) :
    Carries Eq (CMemory.cstr d i) (CMemory.cstr d' i) := by
  intro t ht
  obtain ⟨right, hright, h0⟩ := cstr_ok ht
  obtain ⟨slack, hslack⟩ := h.ahead.drop i
  refine ⟨t, ?_, rfl⟩
  rw [cstr_drop, ← hslack, hright, List.append_assoc, List.cons_append]
  exact cstr_start _ h0

theorem Widens.strchr (h : Widens n d d') (i : ℕ) (c : UInt8) :
    Carries Eq (CMemory.strchr d i c) (CMemory.strchr d' i c) := by
  intro r hr
  obtain ⟨k, hk, hfound⟩ := bind_ok hr
  obtain ⟨_, hk', rfl⟩ := scan_widened (h.ahead.drop i) k hk
  obtain ⟨left, z, right, hsplit, rfl, -, -⟩ := scan_ok hk
  have hlt : i + left.length < d.length := by
    have := congrArg List.length hsplit
    simp only [List.length_drop, List.length_append, List.length_cons] at this
    omega
  refine ⟨r, ?_, rfl⟩
  rw [← hfound, CMemory.strchr, hk', ← h.get hlt]
  rfl

theorem Widens.mem_find (h : Widens n d d') (K : Kore) (start slen : ℕ) {needle : Bytes}
    (hne : needle ≠ []) :
    Carries Eq (kore_mem_find K d start slen needle) (kore_mem_find K d' start slen needle) := by
  intro r hr
  obtain ⟨slack, hslack⟩ := h.ahead.drop start
  have hlen : d.length ≤ d'.length := h.ahead.length_le
  refine ⟨r, ?_, rfl⟩
  rw [← hr]
  unfold kore_mem_find at hr ⊢
  rw [K.mem_find_eq hne] at hr ⊢
  rw [K.mem_find_eq hne, ← hslack]
  cases hfind : find needle ((d.drop start).take slen) with
  | some i =>
    have hwide : find needle ((d.drop start ++ slack).take slen) = some i := by
      rw [List.take_append]
      exact find_append_left _ hne hfind
    rw [hwide]
  | none =>
    simp only [hfind] at hr
    split at hr
    · next hin =>
      have hsame : (d.drop start ++ slack).take slen = (d.drop start).take slen := by
        apply List.take_append_of_le_length
        rw [List.length_drop]
        omega
      rw [hsame, hfind]
      simp only [hin, if_true, if_pos (Nat.le_trans hin hlen)]
    · cases hr

/-- A string that was trimmed stands in front of its NUL. -/
theorem trim_split {s : ℕ} {p : Bytes × ℕ} (h : trim d s = .ok p) :
    ∃ left text right, d = left ++ (text ++ 0 :: right) ∧ left.length = s ∧ 0 ∉ text := by
  obtain ⟨e, he, -⟩ := bind_ok h
  obtain ⟨k, hk, -⟩ := bind_ok he
  obtain ⟨text, z, right, hsplit, -, hclean, hz⟩ := scan_ok hk
  obtain rfl : z = 0 := of_decide_eq_true hz
  refine ⟨d.take s, text, right, ?_, ?_, fun h0 => ?_⟩
  · rw [← hsplit, List.take_append_drop]
  · have := congrArg List.length hsplit
    simp only [List.length_drop, List.length_append, List.length_cons] at this
    rw [List.length_take]
    omega
  · cases hclean 0 h0

theorem Widens.trim (h : Widens n d d') (s : ℕ) :
    Carries (Pointed n) (CompatStrings.trim d s) (CompatStrings.trim d' s) := by
  intro p hp
  obtain ⟨left, text, right, rfl, rfl, h0⟩ := trim_split hp
  obtain ⟨⟨slack, rfl⟩, hlen⟩ := h
  rw [trim_at right h0] at hp
  obtain rfl := Except.ok.inj hp
  have hwide : CompatStrings.trim (left ++ (text ++ 0 :: right) ++ slack) left.length =
      .ok (left ++ (wiped text ++ 0 :: (right ++ slack)), left.length + leading text) := by
    rw [List.append_assoc, List.append_assoc, List.cons_append]
    exact trim_at _ h0
  refine ⟨_, hwide, ⟨⟨slack, ?_⟩, ?_⟩, rfl⟩
  · simp only [List.append_assoc, List.cons_append]
  · rw [← hlen]
    simp only [List.length_append, List.length_cons, wiped_length]

theorem Widens.split_arguments_loop (cmdline cmdlinesz k : ℕ) (h : Widens n d d') (i next : ℕ)
    (argv : List ℕ) :
    Carries (Pointed n) (ViewPasses.split_arguments_loop cmdline cmdlinesz k d i next argv)
      (ViewPasses.split_arguments_loop cmdline cmdlinesz k d' i next argv) := by
  induction k generalizing d d' i next argv with
  | zero => exact .ok ⟨h, rfl⟩
  | succ k ih =>
    unfold ViewPasses.split_arguments_loop
    by_cases hlook : i < cmdlinesz ∧ argv.length < 16
    · rw [if_pos hlook, if_pos hlook]
      refine (h.load _).bind ?_
      rintro c _ rfl
      by_cases hc : c = comma
      · rw [if_pos hc, if_pos hc]
        refine (h.store _ _).bind fun e e' he => (he.trim _).bind ?_
        rintro ⟨f, a⟩ ⟨f', _⟩ ⟨hf, rfl⟩
        exact ih hf _ _ _
      · rw [if_neg hc, if_neg hc]
        exact ih h _ _ _
    · rw [if_neg hlook, if_neg hlook]
      exact .ok ⟨h, rfl⟩

theorem Widens.split_arguments (h : Widens n d d') (cmdline cmdlinesz : ℕ) :
    Carries (Pointed n) (ViewPasses.split_arguments d cmdline cmdlinesz)
      (ViewPasses.split_arguments d' cmdline cmdlinesz) := by
  refine (h.strchr _ _).bind ?_
  rintro found _ rfl
  cases found with
  | none => exact .ok ⟨h, rfl⟩
  | some _ =>
    refine (h.split_arguments_loop _ _ _ _ _ _).bind ?_
    rintro ⟨e, next, argv⟩ ⟨e', _, _⟩ ⟨he, ⟨⟩⟩
    refine (he.trim _).bind ?_
    rintro ⟨f, a⟩ ⟨f', _⟩ ⟨hf, rfl⟩
    dsimp only
    split
    · exact .ok ⟨hf, rfl⟩
    · exact .error _ _

theorem Widens.cstrs (h : Widens n d d') (argv : List ℕ) :
    Carries Eq (argv.mapM (CMemory.cstr d)) (argv.mapM (CMemory.cstr d')) := by
  induction argv with
  | nil => exact .ok rfl
  | cons a argv ih =>
    simp only [List.mapM_cons]
    refine (h.cstr a).bind ?_
    rintro arg _ rfl
    refine ih.bind ?_
    rintro args _ rfl
    exact .ok rfl

end Regions

/-! ## Buffers -/

/-- The block holds the used bytes of the buffer and, behind them, anything. -/
def Grown (b : KoreBuf) (b' : AllocBuf) : Prop := ∃ slack, Holds b' b.data slack

def GrownWith {γ : Type} (p : KoreBuf × γ) (p' : AllocBuf × γ) : Prop :=
  Grown p.1 p'.1 ∧ p.2 = p'.2

theorem grown_alloc (heap : ℕ → ℕ → UInt8) (text : Bytes) :
    Grown (kore_buf_of text) (kore_buf_alloc heap text) := ⟨[], kore_buf_alloc_holds heap text⟩

section Buffers

variable {b : KoreBuf} {b' : AllocBuf}

theorem Grown.widens (h : Grown b b') :
    Widens b.offset (Buffer.region b) (Buffer.region b') := by
  obtain ⟨slack, hslack⟩ := h
  exact ⟨⟨slack, hslack.region.symm⟩, rfl⟩

theorem Grown.offset (h : Grown b b') : Buffer.offset b' = b.offset := by
  obtain ⟨slack, hslack⟩ := h
  exact hslack.offset

theorem Grown.used (h : Grown b b') : Buffer.used b' = b.data := by
  obtain ⟨slack, hslack⟩ := h
  have hregion : b'.data = b.data ++ slack := hslack.region
  have hoffset : b'.offset = b.data.length := hslack.offset
  change b'.data.take b'.offset = b.data
  rw [hregion, hoffset, List.take_left]

theorem Grown.written (h : Grown b b') {d d' : Bytes} (hd : Widens b.offset d d') :
    Grown (Buffer.written b d) (Buffer.written b' d') := by
  obtain ⟨slack, hslack⟩ := hd.ahead
  refine ⟨slack, hslack.symm, ?_⟩
  rw [show Buffer.offset (Buffer.written b' d') = Buffer.offset b' from rfl, h.offset]
  exact hd.length.symm

theorem Grown.buf_of (text : Bytes) : Grown (Buffer.buf_of b text) (Buffer.buf_of b' text) :=
  grown_alloc b'.heap text

theorem Grown.mem_find (h : Grown b b') (K : Kore) {needle : Bytes} (hne : needle ≠ []) :
    Carries Eq (kore_mem_find K (Buffer.region b) 0 (Buffer.offset b) needle)
      (kore_mem_find K (Buffer.region b') 0 (Buffer.offset b') needle) := by
  rw [h.offset]
  exact h.widens.mem_find K 0 b.offset hne

theorem Grown.replace_string (h : Grown b b') (p : ℕ) (l : ℤ) (dst : Bytes) :
    Carries Grown (Buffer.replace_string b p l dst) (Buffer.replace_string b' p l dst) := by
  intro u hu
  obtain ⟨-, -, left, mid, right, hsplit, rfl, rfl, hdata⟩ := replace_string_ok hu
  obtain ⟨slack, hslack⟩ := h
  rw [hsplit] at hslack
  obtain ⟨u', junk, hrun, hholds, -⟩ := replace_string_holds dst hslack
  exact ⟨u', hrun, junk, hdata ▸ hholds⟩

theorem Grown.replace_first_string (h : Grown b b') (K : Kore) {src : Bytes} (dst : Bytes)
    (hne : src ≠ []) :
    Carries Grown (KoreBuffer.aya_buf_replace_first_string K b src dst)
      (KoreBuffer.aya_buf_replace_first_string K b' src dst) := by
  refine (h.mem_find K hne).bind ?_
  rintro found _ rfl
  cases found with
  | none => exact .ok h
  | some p => exact h.replace_string p _ dst

end Buffers

/-! ## Passes -/

section Passes

variable {b : KoreBuf} {b' : AllocBuf} (K : Kore) (S : Symbols)

theorem Grown.parser (h : Grown b b') {token : Bytes} (hne : token ≠ []) :
    Carries Eq (ViewPasses.parser K b token) (ViewPasses.parser K b' token) := by
  refine (h.mem_find K hne).bind ?_
  rintro start _ rfl
  cases start with
  | none => exact .ok rfl
  | some start =>
    refine (h.widens.strchr start TOk_CLOSE).bind ?_
    rintro stop _ rfl
    cases stop with
    | none => exact .ok rfl
    | some stop => exact .ok rfl

theorem Grown.closed_argument (h : Grown b b') (m : Match) :
    Carries GrownWith (ViewPasses.closed_argument b m) (ViewPasses.closed_argument b' m) := by
  refine (h.widens.store _ 0).bind fun d d' hd => (hd.trim m.argument).bind ?_
  rintro ⟨e, argument⟩ ⟨e', _⟩ ⟨he, rfl⟩
  exact .ok ⟨h.written he, rfl⟩

theorem Grown.substitute (h : Grown b b') {token : Bytes} (hne : token ≠ [])
    {text : Bytes → ℕ → ℕ → C (Bytes × Option Bytes)}
    (htext : ∀ n d d' argument argumentsz, Widens n d d' →
      Carries (Pointed n) (text d argument argumentsz) (text d' argument argumentsz)) :
    Carries (Step.Both Grown) (ViewPasses.substitute K token text b)
      (ViewPasses.substitute K token text b') := by
  refine (h.parser K hne).bind ?_
  rintro found _ rfl
  cases found with
  | none => exact .ok (.done h)
  | some m =>
    dsimp only
    split
    · exact .ok (.done h)
    · refine (h.closed_argument m).bind ?_
      rintro ⟨c, argument⟩ ⟨c', _⟩ ⟨hc, rfl⟩
      refine (htext _ _ _ argument _ hc.widens).bind ?_
      rintro ⟨d, str⟩ ⟨d', _⟩ ⟨hd, rfl⟩
      have hw := hc.written hd
      cases str with
      | none => exact .ok (.done hw)
      | some str =>
        refine (hw.replace_string _ _ str).bind fun u u' hu => ?_
        exact .ok (.next hu)

theorem named_text_widened (lookup : Bytes → Option Bytes) (n : ℕ) (d d' : Bytes)
    (argument argumentsz : ℕ) (h : Widens n d d') :
    Carries (Pointed n) (named_text lookup d argument argumentsz)
      (named_text lookup d' argument argumentsz) := by
  refine (h.cstr argument).bind ?_
  rintro name _ rfl
  exact .ok ⟨h, rfl⟩

theorem function_text_widened (n : ℕ) (d d' : Bytes) (argument argumentsz : ℕ)
    (h : Widens n d d') :
    Carries (Pointed n) (function_text S d argument argumentsz)
      (function_text S d' argument argumentsz) := by
  refine (h.split_arguments argument argumentsz).bind ?_
  rintro ⟨e, argv⟩ ⟨e', _⟩ ⟨he, rfl⟩
  dsimp only
  split
  · exact .ok ⟨he, rfl⟩
  · refine (he.cstrs argv).bind ?_
    rintro args _ rfl
    cases call_vfunc S args with
    | none => exact .error _ _
    | some str => exact .ok ⟨he, rfl⟩

theorem Grown.find_marks (h : Grown b b') {first second : Bytes} (hfirst : first ≠ [])
    (hsecond : second ≠ []) :
    Carries Eq (ViewPasses.find_marks K b first second)
      (ViewPasses.find_marks K b' first second) := by
  refine (h.mem_find K hfirst).bind ?_
  rintro start _ rfl
  cases start with
  | none => exact .ok rfl
  | some start =>
    refine (h.mem_find K hsecond).bind ?_
    rintro stop _ rfl
    cases stop with
    | none => exact .ok rfl
    | some stop => exact .ok rfl

theorem Grown.process_comment (h : Grown b b') :
    Carries (Step.Both Grown) (process_comment_body K b) (process_comment_body K b') := by
  refine (h.find_marks K (by decide) (by decide)).bind ?_
  rintro marks _ rfl
  cases marks with
  | none => exact .ok (.done h)
  | some marks =>
    refine (h.replace_string _ _ []).bind fun u u' hu => ?_
    exact .ok (.next hu)

/-- The buffer of a statement may have grown; what was found in it is the same. -/
inductive GrownStatement : KoreBuf ⊕ Statement KoreBuf → AllocBuf ⊕ Statement AllocBuf → Prop
  | ended {c c'} (h : Grown c c') : GrownStatement (.inl c) (.inl c')
  | found {c c'} (h : Grown c c') (argument pos_start : ℕ) (pos_length : ℤ) (stop : ℕ)
      (middle : Option ℕ) :
      GrownStatement (.inr ⟨c, argument, pos_start, pos_length, stop, middle⟩)
        (.inr ⟨c', argument, pos_start, pos_length, stop, middle⟩)

theorem Grown.find_statement (h : Grown b b') :
    Carries GrownStatement (ViewPasses.find_statement K b) (ViewPasses.find_statement K b') := by
  refine (h.parser K (by decide)).bind ?_
  rintro found _ rfl
  cases found with
  | none => exact .ok (.ended h)
  | some m =>
    dsimp only
    split
    · exact .ok (.ended h)
    · refine (h.closed_argument m).bind ?_
      rintro ⟨c, argument⟩ ⟨c', _⟩ ⟨hc, rfl⟩
      have hoffset : Buffer.offset c' = Buffer.offset c := hc.offset
      dsimp only
      rw [hoffset]
      refine (hc.widens.mem_find K argument _ (by decide)).bind ?_
      rintro stop _ rfl
      cases stop with
      | none => exact .ok (.ended hc)
      | some stop =>
        refine (hc.widens.mem_find K argument _ (by decide)).bind ?_
        rintro middle _ rfl
        exact .ok (.found hc argument _ _ stop middle)

theorem Grown.finish_statement (h : Grown b b') (middle : Option ℕ) :
    Carries (Step.Both Grown) (ViewPasses.finish_statement K b middle)
      (ViewPasses.finish_statement K b' middle) := by
  cases middle with
  | none =>
    refine (h.replace_first_string K [] (by decide)).bind fun u u' hu => ?_
    exact .ok (.next hu)
  | some _ =>
    refine (h.find_marks K (by decide) (by decide)).bind ?_
    rintro marks _ rfl
    cases marks with
    | none => exact .ok (.done h)
    | some marks =>
      refine (h.replace_string _ _ []).bind fun c c' hc => ?_
      refine (hc.replace_first_string K [] (by decide)).bind fun u u' hu => ?_
      exact .ok (.next hu)

theorem Grown.process_statement (h : Grown b b') :
    Carries (Step.Both Grown) (process_statement_body K S b) (process_statement_body K S b') := by
  refine (h.find_statement K).bind fun s s' hs => ?_
  cases hs with
  | ended hc => exact .ok (.done hc)
  | found hc argument pos_start pos_length stop middle =>
    refine (hc.widens.cstr argument).bind ?_
    rintro var _ rfl
    dsimp only
    split
    · exact .ok (.done hc)
    · refine (hc.replace_string _ _ []).bind fun c c' hcut => ?_
      exact hcut.finish_statement K middle

theorem Grown.template_body (h : Grown b b') (start : ℕ) :
    Carries GrownWith (ViewPasses.template_body K b start)
      (ViewPasses.template_body K b' start) := by
  refine (h.mem_find K (by decide)).bind ?_
  rintro stop _ rfl
  cases stop with
  | none => exact .ok ⟨h, rfl⟩
  | some stop =>
    refine (h.widens.store stop 0).bind fun d d' hd => (hd.cstr start).bind ?_
    rintro body _ rfl
    exact .ok ⟨h.written hd, rfl⟩

theorem Grown.process_template (h : Grown b b') :
    Carries Grown (ViewPasses.process_template K S b) (ViewPasses.process_template K S b') := by
  refine (h.parser K (by decide)).bind ?_
  rintro found _ rfl
  cases found with
  | none => exact .ok h
  | some m =>
    dsimp only
    split
    · exact .ok h
    · refine (h.closed_argument m).bind ?_
      rintro ⟨c, argument⟩ ⟨c', _⟩ ⟨hc, rfl⟩
      refine (hc.widens.cstr argument).bind ?_
      rintro name _ rfl
      dsimp only
      cases include_asset S name with
      | none => exact .ok hc
      | some asset =>
        refine (hc.template_body K _).bind ?_
        rintro ⟨u, body⟩ ⟨u', _⟩ ⟨hu, rfl⟩
        cases body with
        | none => exact .ok hu
        | some body => exact Grown.replace_first_string (.buf_of asset) K body (by decide)

theorem Grown.view_passes (h : Grown b b') (n : ℕ) :
    CarriesRun Grown (HttpView.view_passes K S n b) (HttpView.view_passes K S n b') := by
  refine (CarriesRun.of_carries (h.process_template K S)).andThen fun c c' hc => ?_
  refine CarriesRun.andThen (run_carries (fun _ _ hs => ?_) n hc) fun u u' hu => ?_
  · exact hs.substitute K (by decide) (named_text_widened _)
  · exact run_carries (fun _ _ hs => hs.process_comment K) n hu

theorem Grown.process_user_vars (h : Grown b b') (hdlr_extra : Option RequestData) (n : ℕ) :
    CarriesRun Grown (HttpView.process_user_vars K hdlr_extra n b)
      (HttpView.process_user_vars K hdlr_extra n b') := by
  unfold HttpView.process_user_vars
  cases hdlr_extra.bind RequestData.session with
  | none => exact .of_carries (.ok h)
  | some session =>
    refine run_carries (fun _ _ hs => ?_) n h
    exact hs.substitute K (by decide) (named_text_widened _)

theorem Grown.directive_passes (h : Grown b b') (hdlr_extra : Option RequestData) (n : ℕ) :
    CarriesRun Grown (RequestView.directive_passes K S hdlr_extra n b)
      (RequestView.directive_passes K S hdlr_extra n b') := by
  refine (h.view_passes K S n).andThen fun c c' hc => ?_
  refine CarriesRun.andThen (run_carries (fun _ _ hs => ?_) n hc) fun d d' hd => ?_
  · exact hs.substitute K (by decide) (function_text_widened S)
  refine CarriesRun.andThen (run_carries (fun _ _ hs => ?_) n hd) fun u u' hu => ?_
  · exact hs.process_statement K S
  · exact hu.process_user_vars K hdlr_extra n

theorem Grown.kore_buf_replace_string (h : Grown b b') (src dst : Bytes) :
    Grown (ViewPredefined.kore_buf_replace_string K b src dst)
      (ViewPredefined.kore_buf_replace_string K b' src dst) := by
  unfold ViewPredefined.kore_buf_replace_string
  rw [h.used]
  exact .buf_of _

theorem Grown.process_predef_vars (h : Grown b b') (V : Surroundings) :
    Carries Grown (ViewPredefined.process_predef_vars K V b)
      (ViewPredefined.process_predef_vars K V b') := by
  unfold ViewPredefined.process_predef_vars
  refine .same _ fun year => .same _ fun domainname => .same _ fun methodname =>
    .same _ fun year => .same _ fun app_instance => .same _ fun date => .same _ fun appname =>
    .same _ fun uptime => .same _ fun env => .same _ fun uri => .same _ fun query_string =>
    .same _ fun host => .same _ fun agent => .same _ fun remote_addr => .ok ?_
  repeat apply Grown.kore_buf_replace_string
  exact h

/-- The passes of `http_view` in their order; the last of them reads the request. -/
theorem Grown.request_passes (h : Grown b b') {V : Server} {request : Request}
    {vars : Surroundings} (hvars : surroundings V request = .ok vars) (n : ℕ) {c : KoreBuf}
    (hviewed : andThen (HttpView.view_passes K S n b) (HttpView.request_passes K S vars n) =
      some (.ok c)) :
    ∃ c', andThen (RequestView.directive_passes K S request.hdlr_extra n b')
      (fun buffer => some (request_predef_vars K V request buffer)) = some (.ok c') ∧
      Grown c c' := by
  obtain ⟨hextra, -, -⟩ := surroundings_request hvars
  obtain ⟨u₁, hview, hrest⟩ := andThen_eq_ok_iff.mp hviewed
  obtain ⟨u₂, hfunction, hrest⟩ := andThen_eq_ok_iff.mp hrest
  obtain ⟨u₃, hstatement, hrest⟩ := andThen_eq_ok_iff.mp hrest
  obtain ⟨u₄, huser, hpredef⟩ := andThen_eq_ok_iff.mp hrest
  rw [hextra] at huser
  have hdirectives : RequestView.directive_passes K S request.hdlr_extra n b = some (.ok u₄) :=
    andThen_eq_ok_iff.mpr ⟨u₁, hview, andThen_eq_ok_iff.mpr ⟨u₂, hfunction,
      andThen_eq_ok_iff.mpr ⟨u₃, hstatement, huser⟩⟩⟩
  obtain ⟨u', hdirectives', hu⟩ := h.directive_passes K S request.hdlr_extra n _ hdirectives
  obtain ⟨c', hpredef', hc⟩ := hu.process_predef_vars K vars _ (Option.some.inj hpredef)
  refine ⟨c', andThen_eq_ok_iff.mpr ⟨u', hdirectives', ?_⟩, hc⟩
  rw [request_predef_vars, hvars]
  exact congrArg some hpredef'

/-- What `http_view` answers from the used bytes of its buffer it answers from the whole block,
whatever the allocator leaves there. -/
theorem http_view_allocated {V : Server} {request : Request} {vars : Surroundings} {n : ℕ}
    {code : ℤ} {view : Bytes} {reply : Reply} (heap : ℕ → ℕ → UInt8)
    (hvars : surroundings V request = .ok vars)
    (h : http_view K S vars n code view = some (.ok reply)) :
    request_view (kore_buf_alloc heap) K S V request n code view = some (.ok reply) := by
  unfold http_view at h
  unfold request_view
  cases hasset : include_asset S view with
  | none =>
    rw [hasset] at h
    exact h
  | some baseview =>
    rw [hasset] at h
    obtain ⟨str, hrender, hreply⟩ := andThen_eq_ok_iff.mp h
    have hgrown := grown_alloc heap baseview
    have hsearch := hgrown.mem_find K (show bytes "@" ≠ [] by decide)
    unfold render at hrender
    cases hfind : kore_mem_find K (kore_buf_of baseview).data 0 (kore_buf_of baseview).offset
        (bytes "@") with
    | error e =>
      simp only [hfind] at hrender
      cases hrender
    | ok found =>
      obtain ⟨_, hfound, rfl⟩ := hsearch found hfind
      simp only [hfind] at hrender
      simp only [hfound]
      cases found with
      | none =>
        obtain rfl : (kore_buf_of baseview).data = str := Except.ok.inj (Option.some.inj hrender)
        rw [hgrown.used]
        exact hreply
      | some _ =>
        obtain ⟨c₁, hview, hrest⟩ := andThen_eq_ok_iff.mp hrender
        obtain ⟨c, hpasses, hdata⟩ := andThen_eq_ok_iff.mp hrest
        obtain rfl : c.data = str := Except.ok.inj (Option.some.inj hdata)
        obtain ⟨c', hrun, hc⟩ := hgrown.request_passes K S hvars n
          (andThen_eq_ok_iff.mpr ⟨c₁, hview, hpasses⟩)
        obtain ⟨u, hdirectives, hpredef⟩ := andThen_eq_ok_iff.mp hrun
        refine andThen_eq_ok_iff.mpr ⟨u, hdirectives, andThen_eq_ok_iff.mpr ⟨c', hpredef, ?_⟩⟩
        rw [hc.used]
        exact hreply

/-- A sale is on. -/
def offer : Symbols where
  data name := if name = bytes "asset_offer_html" then
    some (bytes "@if(sale)half price, @else@endif@agent") else none
  vfunc _ := none
  vvar name := if name = bytes "sale" then some 1 else none

/-- Every byte that the allocator finds is an `@`. The NUL is the bracket of the directive. -/
theorem http_view_allocated_offer :
    request_view (kore_buf_alloc fun _ _ => 64) reference offer site
      (visit (some (bytes "curl"))) 2 200 (bytes "offer") =
      some (.ok ⟨200, bytes "text/html", 0 :: bytes "half price, curl"⟩) := by
  have hanswer : (surroundings site (visit (some (bytes "curl")))).map (fun vars =>
      http_view reference offer vars 2 200 (bytes "offer")) =
      .ok (some (.ok ⟨200, bytes "text/html", 0 :: bytes "half price, curl"⟩)) := by
    decide +kernel
  cases hvars : surroundings site (visit (some (bytes "curl"))) with
  | error e =>
    rw [hvars] at hanswer
    cases hanswer
  | ok vars =>
    rw [hvars] at hanswer
    exact http_view_allocated reference offer _ hvars (Except.ok.inj hanswer)

end Passes

end AllocatedPasses
