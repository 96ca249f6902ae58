import Mathlib.Data.List.Forall2
import Ayahesa.ViewSubstitution

/-! # Splitting the arguments of a function directive

The loop steps over the byte behind every comma it closes, and it goes on for as many bytes as
the argument had before its leading blanks were passed. -/
namespace ArgumentSplitting

open CMemory CompatStrings ByteSearch ViewPasses ViewDirectives ViewArguments ViewSubstitution
open KoreBuffer

/-! ## What the loop does with a byte -/

section Loop

variable {p sz n i next : ℕ} {d : Bytes} {argv : List ℕ}

theorem loop_stops (hi : sz ≤ i) :
    split_arguments_loop p sz n d i next argv = .ok (d, next, argv) := by
  cases n with
  | zero => rfl
  | succ n => simp only [split_arguments_loop, show ¬ (i < sz) by omega, false_and, if_false]

theorem loop_passes {m : ℕ} (him : i ≤ m) (hm : m ≤ sz) (hroom : argv.length < 16)
    (hplain : ∀ j, i ≤ j → j < m → ∃ c, d[p + j]? = some c ∧ c ≠ comma) (hn : sz ≤ i + n) :
    ∃ n', sz ≤ m + n' ∧ split_arguments_loop p sz n d i next argv =
      split_arguments_loop p sz n' d m next argv := by
  obtain ⟨k, rfl⟩ := Nat.exists_eq_add_of_le him
  induction k generalizing i n with
  | zero => exact ⟨n, hn, rfl⟩
  | succ k ih =>
    obtain ⟨n, rfl⟩ : ∃ n', n = n' + 1 := ⟨n - 1, by omega⟩
    obtain ⟨c, hc, hcomma⟩ := hplain i (Nat.le_refl i) (by omega)
    have hpass : split_arguments_loop p sz (n + 1) d i next argv =
        split_arguments_loop p sz n d (i + 1) next argv := by
      simp only [split_arguments_loop, show i < sz by omega, hroom, and_self, if_true,
        load_of_get hc, hcomma, if_false, bind, Except.bind]
    rw [hpass, show i + (k + 1) = i + 1 + k by omega]
    apply ih (by omega) (by omega) (by omega)
    intro j hj hjk
    exact hplain j (by omega) (by omega)

/-- A comma becomes a NUL, what stands in front of it is trimmed, and the byte behind it is
passed unseen. -/
theorem loop_closes (hi : i < sz) (hroom : argv.length < 16) (hc : d[p + i]? = some comma)
    (hn : sz ≤ i + n) :
    ∃ n', sz ≤ i + 2 + n' ∧ split_arguments_loop p sz n d i next argv = (do
      let (d, a) ← trim (d.set (p + i) 0) next
      split_arguments_loop p sz n' d (i + 2) (p + i + 1) (argv ++ [a])) := by
  obtain ⟨n, rfl⟩ : ∃ n', n = n' + 1 := ⟨n - 1, by omega⟩
  have hlt := (List.getElem?_eq_some_iff.mp hc).1
  refine ⟨n, by omega, ?_⟩
  simp only [split_arguments_loop, hi, hroom, and_self, if_true, load_of_get hc, store, hlt, bind,
    Except.bind]

end Loop

def split_rest (p sz n : ℕ) (d : Bytes) (i next : ℕ) (argv : List ℕ) : C (Bytes × List ℕ) := do
  let (d, next, argv) ← split_arguments_loop p sz n d i next argv
  let (d, a) ← trim d next
  if argv.length < 16 then return (d, argv ++ [a]) else .error .outOfBounds

def Fields (d : Bytes) (argv : List ℕ) (fields : List Bytes) : Prop :=
  List.Forall₂ (fun a field => cstr d a = .ok field) argv fields

/-! ## A text and its first comma -/

theorem cut_at_comma {t : Bytes} (h : comma ∈ t) :
    ∃ f rest, t = f ++ comma :: rest ∧ comma ∉ f ∧ t.count comma = rest.count comma + 1 ∧
      arguments t = trimmed f :: arguments rest := by
  obtain ⟨f, rest, rfl, hcomma⟩ := List.eq_append_cons_of_mem h
  refine ⟨f, rest, rfl, hcomma, ?_, ?_⟩
  · rw [List.count_append, List.count_cons_self, List.count_eq_zero.mpr hcomma, Nat.zero_add]
  · rw [arguments, List.splitOn_append_cons_self_of_not_mem hcomma]
    rfl

theorem arguments_single {t : Bytes} (h : comma ∉ t) : arguments t = [trimmed t] := by
  rw [arguments, List.splitOn_eq_singleton h]
  rfl

theorem arguments_length (t : Bytes) : (arguments t).length = t.count comma + 1 := by
  obtain ⟨k, hk⟩ : ∃ k, t.count comma = k := ⟨_, rfl⟩
  induction k generalizing t with
  | zero =>
    rw [arguments_single (List.count_eq_zero.mp hk), hk]
    rfl
  | succ k ih =>
    obtain ⟨f, rest, _, _, hcount, hargs⟩ :=
      cut_at_comma (List.count_pos_iff.mp (show 0 < t.count comma by omega))
    rw [hargs, List.length_cons, ih rest (by omega), hcount]

/-- Without adjacent commas another byte, or none, stands behind each of them. -/
theorem apart_behind {f rest : Bytes} (h : Free [comma, comma] (f ++ comma :: rest)) :
    Free [comma, comma] rest ∧ rest.head? ≠ some comma := by
  refine ⟨h.of_isInfix ⟨f ++ [comma], [], by simp⟩, fun hhead => ?_⟩
  obtain ⟨more, rfl⟩ := List.head?_eq_some_iff.mp hhead
  exact h.not_isInfix ⟨f, more, by simp⟩

section Sufficient

variable {p sz stop : ℕ} {R : Bytes}

/-- Behind the text the loop meets bytes of the buffer and no comma. -/
def Quiet (R : Bytes) (stop bound : ℕ) : Prop :=
  ∀ k, stop + k < bound → ∃ c, (0 :: R)[k]? = some c ∧ c ≠ comma

/-- A byte of a text that a search for commas passes. -/
theorem byte_passed {H f S : Bytes} (hf : comma ∉ f) {q : ℕ} (hq : H.length ≤ q)
    (hlt : q < H.length + f.length) : ∃ c, (H ++ (f ++ S))[q]? = some c ∧ c ≠ comma := by
  have hget : (H ++ (f ++ S))[q]? = f[q - H.length]? := by
    rw [List.getElem?_append_right hq, List.getElem?_append_left (by omega)]
  cases hc : f[q - H.length]? with
  | none =>
    have := List.getElem?_eq_none_iff.mp hc
    omega
  | some c => exact ⟨c, hget.trans hc, fun h => hf (h ▸ List.mem_of_getElem? hc)⟩

theorem split_rest_last {t H : Bytes} {n i : ℕ} {argv : List ℕ} (hcomma : comma ∉ t)
    (h0 : 0 ∉ t) (hstop : H.length + t.length = stop) (hquiet : Quiet R stop (p + sz))
    (hi : H.length ≤ p + i) (hroom : argv.length < 16) (hn : sz ≤ i + n) :
    split_rest p sz n (H ++ (t ++ 0 :: R)) i H.length argv =
      .ok (H ++ (wiped t ++ 0 :: R), argv ++ [H.length + leading t]) := by
  have hplain : ∀ j, i ≤ j → j < sz →
      ∃ c, (H ++ (t ++ 0 :: R))[p + j]? = some c ∧ c ≠ comma := by
    intro j hj hjs
    by_cases hin : p + j < H.length + t.length
    · exact byte_passed hcomma (by omega) hin
    · obtain ⟨c, hc, hne⟩ := hquiet (p + j - stop) (by omega)
      refine ⟨c, ?_, hne⟩
      rw [List.getElem?_append_right (by omega), List.getElem?_append_right (by omega), ← hc]
      congr 1
      omega
  have hloop : split_arguments_loop p sz n (H ++ (t ++ 0 :: R)) i H.length argv =
      .ok (H ++ (t ++ 0 :: R), H.length, argv) := by
    by_cases his : i ≤ sz
    · obtain ⟨n', _, hpass⟩ := @loop_passes p sz n i H.length _ argv sz his (Nat.le_refl sz) hroom
        hplain hn
      rw [hpass]
      exact loop_stops (Nat.le_refl sz)
    · exact loop_stops (by omega)
  have htrim : trim (H ++ (t ++ 0 :: R)) H.length = _ := trim_at R h0
  simp only [split_rest, hloop, htrim, hroom, if_true, bind, Except.bind, pure, Except.pure]

theorem split_rest_field {f t H : Bytes} {n i : ℕ} {argv : List ℕ} (hcomma : comma ∉ f)
    (h0 : 0 ∉ f) (hcover : H.length + f.length < p + sz) (hi : H.length ≤ p + i)
    (hif : p + i ≤ H.length + f.length) (hroom : argv.length < 16) (hn : sz ≤ i + n) :
    ∃ i' n', p + i' = (H ++ (wiped f ++ [0])).length + 1 ∧ sz ≤ i' + n' ∧
      split_rest p sz n (H ++ (f ++ comma :: t)) i H.length argv =
        split_rest p sz n' ((H ++ (wiped f ++ [0])) ++ t) i' (H ++ (wiped f ++ [0])).length
          (argv ++ [H.length + leading f]) := by
  obtain ⟨m, hm⟩ : ∃ m, p + m = H.length + f.length := ⟨H.length + f.length - p, by omega⟩
  have hplain : ∀ j, i ≤ j → j < m →
      ∃ c, (H ++ (f ++ comma :: t))[p + j]? = some c ∧ c ≠ comma := by
    intro j hj hjm
    exact byte_passed hcomma (by omega) (by omega)
  obtain ⟨n₁, hn₁, hpass⟩ := @loop_passes p sz n i H.length _ argv m (by omega) (by omega) hroom
    hplain hn
  have hget : (H ++ (f ++ comma :: t))[p + m]? = some comma := by
    rw [hm, List.getElem?_append_right (by omega), List.getElem?_append_right (by omega)]
    simp
  obtain ⟨n₂, hn₂, hclose⟩ := @loop_closes p sz n₁ m H.length _ argv (by omega) hroom hget hn₁
  have hset : (H ++ (f ++ comma :: t)).set (p + m) 0 = H ++ (f ++ 0 :: t) := by
    rw [hm, List.set_append_right _ _ (by omega), Nat.add_sub_cancel_left,
      List.set_append_right _ _ (Nat.le_refl _), Nat.sub_self, List.set_cons_zero]
  have htrim : trim (H ++ (f ++ 0 :: t)) H.length = _ := trim_at t h0
  have hlen : (H ++ (wiped f ++ [0])).length = p + m + 1 := by
    simp only [List.length_append, List.length_singleton, wiped_length]
    omega
  have hdata : H ++ (wiped f ++ 0 :: t) = (H ++ (wiped f ++ [0])) ++ t := by simp
  refine ⟨m + 2, n₂, by omega, hn₂, ?_⟩
  simp only [split_rest, hpass, hclose, hset, htrim, hdata, hlen, bind, Except.bind]

theorem split_rest_fields {t H : Bytes} {n i : ℕ} {argv : List ℕ}
    (hi : p + i = H.length ∨ (p + i = H.length + 1 ∧ t.head? ≠ some comma)) (h0 : 0 ∉ t)
    (hapart : Free [comma, comma] t) (hroom : argv.length + t.count comma < 16)
    (hstop : H.length + t.length = stop) (hcover : stop ≤ p + sz)
    (hquiet : Quiet R stop (p + sz)) (hn : sz ≤ i + n) :
    ∃ E as, split_rest p sz n (H ++ (t ++ 0 :: R)) i H.length argv =
        .ok (H ++ (E ++ 0 :: R), argv ++ as) ∧ E.length = t.length ∧
      Fields (H ++ (E ++ 0 :: R)) as (arguments t) := by
  obtain ⟨k, hk⟩ : ∃ k, t.count comma = k := ⟨_, rfl⟩
  induction k generalizing t H n i argv with
  | zero =>
    have hcomma : comma ∉ t := List.count_eq_zero.mp hk
    refine ⟨wiped t, [H.length + leading t], ?_, wiped_length t, ?_⟩
    · exact split_rest_last hcomma h0 hstop hquiet (by omega) (by omega) hn
    · rw [arguments_single hcomma]
      exact .cons (cstr_trimmed R h0) .nil
  | succ k ih =>
    obtain ⟨f, rest, rfl, hcomma, hcount, hargs⟩ :=
      cut_at_comma (List.count_pos_iff.mp (show 0 < t.count comma by omega))
    have hf0 : 0 ∉ f := fun h => h0 (List.mem_append_left _ h)
    have hrest0 : 0 ∉ rest := fun h => h0 (List.mem_append_right _ (List.mem_cons_of_mem _ h))
    obtain ⟨hapart', hhead⟩ := apart_behind hapart
    have hif : p + i ≤ H.length + f.length := by
      rcases hi with hi | ⟨hi, hne⟩
      · omega
      · have hpos : 0 < f.length := by
          apply List.length_pos_of_ne_nil
          rintro rfl
          exact hne rfl
        omega
    rw [List.length_append, List.length_cons] at hstop
    have hfew : argv.length < 16 := by omega
    have hcover' : H.length + f.length < p + sz := by omega
    obtain ⟨i', n', hi', hn', hfield⟩ := @split_rest_field p sz f (rest ++ 0 :: R) H n i argv
      hcomma hf0 hcover' (by omega) hif hfew hn
    have hroom' : (argv ++ [H.length + leading f]).length + rest.count comma < 16 := by
      rw [List.length_append, List.length_singleton]
      omega
    have hstop' : (H ++ (wiped f ++ [0])).length + rest.length = stop := by
      simp only [List.length_append, List.length_singleton, wiped_length]
      omega
    obtain ⟨E, as, hrun, hE, hfields⟩ :=
      ih (Or.inr ⟨hi', hhead⟩) hrest0 hapart' hroom' hstop' hn' (by omega)
    have hdata : (H ++ (wiped f ++ [0])) ++ (E ++ 0 :: R) =
        H ++ (wiped f ++ 0 :: (E ++ 0 :: R)) := by simp
    refine ⟨wiped f ++ 0 :: E, (H.length + leading f) :: as, ?_, ?_, ?_⟩
    · have hsource : H ++ (f ++ comma :: rest ++ 0 :: R) =
          H ++ (f ++ comma :: (rest ++ 0 :: R)) := by simp
      rw [hsource, hfield, hrun, hdata]
      simp
    · simp only [List.length_append, List.length_cons, wiped_length, hE]
    · have hE' : H ++ (wiped f ++ 0 :: E ++ 0 :: R) = H ++ (wiped f ++ 0 :: (E ++ 0 :: R)) := by
        simp
      rw [hE', hargs]
      rw [hdata] at hfields
      exact .cons (cstr_trimmed (E ++ 0 :: R) hf0) hfields

end Sufficient

/-! ## What a run that comes to its end has done -/

section Necessary

variable {p sz n i next next' s z : ℕ} {d d' : Bytes} {argv argv' : List ℕ}

theorem rstripLoop_frame (d : Bytes) (s n : ℕ) {j : ℕ} (hj : s + n ≤ j) :
    (rstripLoop d s n)[j]? = d[j]? := by
  induction n generalizing d with
  | zero => rfl
  | succ n ih =>
    simp only [rstripLoop]
    split
    · rw [ih _ (by omega), List.getElem?_set_ne (by omega)]
    · rfl

theorem trim_frame {a j : ℕ} (h : trim d s = .ok (d', a)) (hs : s ≤ z) (hz : d[z]? = some 0)
    (hj : z ≤ j) : d'[j]? = d[j]? := by
  obtain ⟨e, he, h⟩ := bind_ok h
  obtain ⟨m, _, h⟩ := bind_ok h
  obtain ⟨n, hn, he⟩ := bind_ok he
  obtain rfl := (Prod.mk.inj (Except.ok.inj h)).1
  rw [← Except.ok.inj he]
  obtain ⟨left, c, right, hd, rfl, hleft, _⟩ := scan_ok hn
  apply rstripLoop_frame
  by_contra hlt
  have hget : left[z - s]? = some 0 := by
    have hdrop := congrArg (fun l : Bytes => l[z - s]?) hd
    simp only [List.getElem?_drop, show s + (z - s) = z by omega, hz] at hdrop
    rw [List.getElem?_append_left (by omega)] at hdrop
    exact hdrop.symm
  exact absurd (hleft 0 (List.mem_of_getElem? hget)) (by decide)

theorem loop_grows (h : split_arguments_loop p sz n d i next argv = .ok (d', next', argv')) :
    argv.length ≤ argv'.length := by
  induction n generalizing d i next argv with
  | zero =>
    obtain ⟨_, _, rfl⟩ : d = d' ∧ next = next' ∧ argv = argv' := by
      simpa [split_arguments_loop] using h
    exact Nat.le_refl _
  | succ n ih =>
    simp only [split_arguments_loop] at h
    split at h
    · obtain ⟨c, _, h⟩ := bind_ok h
      split at h
      · obtain ⟨_, _, h⟩ := bind_ok h
        obtain ⟨_, _, h⟩ := bind_ok h
        have := ih h
        rw [List.length_append, List.length_singleton] at this
        omega
      · exact ih h
    · obtain ⟨_, _, rfl⟩ : d = d' ∧ next = next' ∧ argv = argv' := by simpa using h
      exact Nat.le_refl _

/-- What one pass of a loop did that had room to the end. -/
inductive Passed (p sz i next : ℕ) (d : Bytes) (argv : List ℕ) (r : Bytes × ℕ × List ℕ) : Prop where
  | plain {n : ℕ} {c : UInt8} : d[p + i]? = some c → c ≠ comma → sz ≤ i + 1 + n →
      split_arguments_loop p sz n d (i + 1) next argv = .ok r → Passed p sz i next d argv r
  | closed {n a : ℕ} {e : Bytes} : d[p + i]? = some comma → e[p + i]? = some 0 →
      (∀ j, p + i < j → e[j]? = d[j]?) → sz ≤ i + 2 + n →
      split_arguments_loop p sz n e (i + 2) (p + i + 1) (argv ++ [a]) = .ok r →
      Passed p sz i next d argv r

theorem loop_passed (h : split_arguments_loop p sz n d i next argv = .ok (d', next', argv'))
    (hroom : argv'.length < 16) (hi : i < sz) (hn : sz ≤ i + n) (hnext : next ≤ p + i) :
    Passed p sz i next d argv (d', next', argv') := by
  have hfew : argv.length < 16 := Nat.lt_of_le_of_lt (loop_grows h) hroom
  obtain ⟨n, rfl⟩ : ∃ n', n = n' + 1 := ⟨n - 1, by omega⟩
  simp only [split_arguments_loop, hi, hfew, and_self, if_true] at h
  obtain ⟨c, hload, h⟩ := bind_ok h
  have hc := get_of_load hload
  split at h
  · next heq =>
    subst heq
    obtain ⟨d₁, hstore, hrest⟩ := bind_ok h
    obtain ⟨⟨d₂, a⟩, htrim, hrun⟩ := bind_ok hrest
    have hlt := (List.getElem?_eq_some_iff.mp hc).1
    rw [store, if_pos hlt] at hstore
    obtain rfl := Except.ok.inj hstore
    have hzero : (d.set (p + i) 0)[p + i]? = some 0 := List.getElem?_set_self hlt
    refine .closed hc ?_ ?_ (by omega) hrun
    · rw [trim_frame htrim hnext hzero (Nat.le_refl _)]
      exact hzero
    · intro j hj
      rw [trim_frame htrim hnext hzero (by omega), List.getElem?_set_ne (by omega)]
  · next hne => exact .plain hc hne (by omega) h

/-- A byte that no comma in front of it hides is looked at, and a comma among them is closed. -/
theorem loop_visits {k q : ℕ}
    (h : split_arguments_loop p sz n d i next argv = .ok (d', next', argv'))
    (hroom : argv'.length < 16) (hn : sz ≤ i + n) (hp : p ≤ next) (hnext : next ≤ p + i)
    (hk : q = i + k) (hq : q < sz) (hseen : k = 0 ∨ d[p + q - 1]? ≠ some comma) :
    ∃ c, d[p + q]? = some c ∧ (c = comma → d'[p + q]? = some 0) := by
  induction k using Nat.strong_induction_on generalizing n d i next argv with
  | _ k ih =>
  cases loop_passed h hroom (by omega) hn hnext with
  | @plain n c hc hne hn h =>
    rcases Nat.eq_zero_or_pos k with rfl | hpos
    · exact ⟨c, by rw [hk]; exact hc, fun heq => absurd heq hne⟩
    · refine ih (k - 1) (by omega) h hn hp (by omega) (by omega) ?_
      exact Or.inr (hseen.resolve_left (by omega))
  | @closed n a e hc hzero hsame hn h =>
    rcases Nat.eq_zero_or_pos k with rfl | hpos
    · refine ⟨comma, by rw [hk]; exact hc, fun _ => ?_⟩
      have hblank := (split_arguments_loop_blanks (by omega) h).1
      rw [hk]
      rcases hblank.byte _ 0 hzero with hkeep | ⟨_, hkeep, _⟩
      · exact hkeep
      · exact hkeep
    · have hprev := hseen.resolve_left (by omega)
      have hk2 : 2 ≤ k := by
        by_contra hlt
        apply hprev
        rw [show p + q - 1 = p + i by omega]
        exact hc
      have hstep := ih (k - 2) (by omega) h hn (by omega) (by omega) (by omega)
        (by
          by_cases hk0 : k - 2 = 0
          · exact Or.inl hk0
          · exact Or.inr (by rw [hsame _ (by omega)]; exact hprev))
      rwa [hsame _ (by omega)] at hstep

def seen : Bool → Bytes → ℕ
  | _, [] => 0
  | true, _ :: s => seen false s
  | false, c :: s => if c = comma then seen true s + 1 else seen false s

theorem seen_true (s : Bytes) : seen true s = seen false s.tail := by
  cases s with
  | nil => rfl
  | cons c s => rfl

/-- A run with room to its end stores one pointer for each comma it sees. -/
theorem loop_counts {k : ℕ}
    (h : split_arguments_loop p sz n d i next argv = .ok (d', next', argv'))
    (hroom : argv'.length < 16) (hn : sz ≤ i + n) (hnext : next ≤ p + i) (hk : sz ≤ i + k) :
    argv'.length = argv.length + seen false ((d.drop (p + i)).take (sz - i)) := by
  induction k using Nat.strong_induction_on generalizing n d i next argv with
  | _ k ih =>
  by_cases hi : i < sz
  · obtain ⟨m, hm⟩ : ∃ m, sz - i = m + 1 := ⟨sz - i - 1, by omega⟩
    cases loop_passed h hroom hi hn hnext with
    | @plain n c hc hne hn h =>
      rw [ih (k - 1) (by omega) h hn (by omega) (by omega)]
      obtain ⟨hlt, rfl⟩ := List.getElem?_eq_some_iff.mp hc
      rw [hm, List.drop_eq_getElem_cons hlt, List.take_succ_cons]
      simp only [seen, hne, if_false]
      rw [show sz - (i + 1) = m by omega, ← Nat.add_assoc]
    | @closed n a e hc hzero hsame hn h =>
      have hdrop : e.drop (p + (i + 2)) = d.drop (p + (i + 2)) := by
        apply List.ext_getElem?
        intro j
        rw [List.getElem?_drop, List.getElem?_drop, hsame _ (by omega)]
      rw [ih (k - 2) (by omega) h hn (by omega) (by omega), hdrop]
      obtain ⟨hlt, heq⟩ := List.getElem?_eq_some_iff.mp hc
      rw [hm, List.drop_eq_getElem_cons hlt, List.take_succ_cons, heq]
      simp only [seen, if_true, seen_true, List.length_append, List.length_singleton]
      rw [← List.drop_one, List.drop_take, List.drop_drop, show sz - (i + 2) = m - 1 by omega,
        show p + i + 1 + 1 = p + (i + 2) by omega]
      omega
  · rw [loop_stops (by omega)] at h
    obtain ⟨_, _, rfl⟩ : d = d' ∧ next = next' ∧ argv = argv' := by simpa using h
    rw [show sz - i = 0 by omega, List.take_zero]
    rfl

end Necessary

section Seen

theorem seen_quiet (b : Bool) {s : Bytes} (h : comma ∉ s) : seen b s = 0 := by
  induction s generalizing b with
  | nil => cases b <;> rfl
  | cons c s ih =>
    have hc : c ≠ comma := fun heq => h (heq ▸ List.mem_cons_self)
    have hs : comma ∉ s := fun hmem => h (List.mem_cons_of_mem c hmem)
    cases b with
    | true => exact ih false hs
    | false => simpa only [seen, hc, if_false] using ih false hs

theorem seen_append (b : Bool) (s : Bytes) {u : Bytes} (h : comma ∉ u) :
    seen b (s ++ u) = seen b s := by
  induction s generalizing b with
  | nil =>
    rw [List.nil_append, seen_quiet b h]
    cases b <;> rfl
  | cons c s ih =>
    cases b with
    | true => exact ih false
    | false => simp only [List.cons_append, seen, ih]

theorem apart_cons {c : UInt8} {s : Bytes} (h : c = comma → s.head? ≠ some comma)
    (hs : Free [comma, comma] s) : Free [comma, comma] (c :: s) := by
  apply free_of_not_isInfix
  intro hin
  rcases List.infix_cons_iff.mp hin with hpre | hin
  · obtain ⟨hc, hpre⟩ := List.cons_prefix_cons.mp hpre
    obtain ⟨u, rfl⟩ := hpre
    exact h hc.symm rfl
  · exact hs.not_isInfix hin

theorem seen_le_count (b : Bool) (s : Bytes) : seen b s ≤ s.count comma := by
  induction s generalizing b with
  | nil => cases b <;> exact Nat.le_refl 0
  | cons c s ih =>
    have htrue := ih true
    have hfalse := ih false
    by_cases hc : c = comma
    · subst hc
      rw [List.count_cons_self]
      cases b with
      | true =>
        simp only [seen]
        omega
      | false =>
        simp only [seen, if_true]
        omega
    · rw [List.count_cons_of_ne hc]
      cases b with
      | true => exact hfalse
      | false => simpa only [seen, hc, if_false] using hfalse

/-- The loop misses a comma when one stands behind another. -/
theorem apart_of_seen {s : Bytes} (h : seen false s = s.count comma) : Free [comma, comma] s := by
  induction s with
  | nil => exact free_nil (by simp)
  | cons c s ih =>
    by_cases hc : c = comma
    · subst hc
      simp only [seen, if_true, List.count_cons_self, Nat.add_right_cancel_iff] at h
      cases s with
      | nil => exact apart_cons (by simp) (free_nil (by simp))
      | cons x s =>
        have hx : x ≠ comma := by
          rintro rfl
          have hle := seen_le_count false s
          simp only [seen, List.count_cons_self] at h
          omega
        have hsame : seen false (x :: s) = (x :: s).count comma := by
          rw [← h]
          simp only [seen, hx, if_false]
        exact apart_cons (fun _ heq => hx (Option.some.inj heq)) (ih hsame)
    · rw [List.count_cons_of_ne hc] at h
      simp only [seen, hc, if_false] at h
      exact apart_cons (fun heq => absurd heq hc) (ih h)

end Seen

/-! ## A text in a region -/

/-- The text at `p` is split into its arguments, in the slots there are and in place. -/
structure Split (d : Bytes) (p sz : ℕ) (t d' : Bytes) (argv : List ℕ) : Prop where
  run : split_arguments d p sz = .ok (d', argv)
  fields : Fields d' argv (arguments t)
  slots : argv.length ≤ 16
  beyond : d'.drop (p + t.length) = d.drop (p + t.length)

section Region

variable {H t R : Bytes} {sz : ℕ}

theorem split_single (h0 : 0 ∉ t) (hcomma : comma ∉ t) (htrim : trimmed t = t) :
    Split (H ++ (t ++ 0 :: R)) H.length sz t (H ++ (t ++ 0 :: R)) [H.length] := by
  have hstr : strchr (H ++ (t ++ 0 :: R)) H.length comma = .ok none :=
    strchr_ended R hcomma h0 (by decide)
  refine ⟨?_, ?_, by simp, rfl⟩
  · simp only [split_arguments, hstr, bind, Except.bind, pure, Except.pure]
  · rw [arguments_single hcomma, htrim]
    exact .cons (cstr_at R h0) .nil

theorem split_arguments_rest (h0 : 0 ∉ t) (hcomma : comma ∈ t) :
    split_arguments (H ++ (t ++ 0 :: R)) H.length sz =
      split_rest H.length sz sz (H ++ (t ++ 0 :: R)) 0 H.length [] := by
  obtain ⟨f, rest, rfl, hf⟩ := List.eq_append_cons_of_mem hcomma
  have hf0 : 0 ∉ f := fun h => h0 (List.mem_append_left _ h)
  have hstr : strchr (H ++ (f ++ comma :: (rest ++ 0 :: R))) H.length comma =
      .ok (some (H.length + f.length)) := strchr_found (rest ++ 0 :: R) hf hf0
  rw [List.append_assoc, List.cons_append]
  simp only [split_arguments, hstr, split_rest, bind, Except.bind]

theorem behind_text (H t R : Bytes) (k : ℕ) :
    (H ++ (t ++ 0 :: R))[H.length + t.length + k]? = (0 :: R)[k]? := by
  rw [List.getElem?_append_right (by omega), List.getElem?_append_right (by omega)]
  congr 1
  omega

theorem Quiet.comma_free {stop m : ℕ} (h : Quiet R stop (stop + m)) :
    comma ∉ (0 :: R).take m := by
  intro hmem
  obtain ⟨k, hk⟩ := List.getElem?_of_mem hmem
  have hlt : k < m := by
    obtain ⟨hk, _⟩ := List.getElem?_eq_some_iff.mp hk
    rw [List.length_take] at hk
    omega
  obtain ⟨c, hc, hne⟩ := h k (by omega)
  rw [List.getElem?_take_of_lt hlt, hc] at hk
  exact hne (Option.some.inj hk)

theorem loop_quiet {n next : ℕ} {d₁ d' : Bytes} {argv : List ℕ} (ht : t ≠ [])
    (h : split_arguments_loop H.length sz n (H ++ (t ++ 0 :: R)) 0 H.length [] =
      .ok (d₁, next, argv)) (hroom : argv.length < 16) (hn : sz ≤ n)
    (hkeep : ∀ q : ℕ, d₁[q]? = some 0 → d'[q]? = some 0)
    (hbeyond : d'.drop (H.length + t.length) = (H ++ (t ++ 0 :: R)).drop (H.length + t.length)) :
    Quiet R (H.length + t.length) (H.length + sz) := by
  have hpos := List.length_pos_of_ne_nil ht
  intro k
  induction k with
  | zero => exact fun _ => ⟨0, rfl, by decide⟩
  | succ k ih =>
    intro hk
    obtain ⟨c₀, hc₀, hne₀⟩ := ih (by omega)
    have hprev : (H ++ (t ++ 0 :: R))[H.length + (t.length + (k + 1)) - 1]? ≠ some comma := by
      rw [show H.length + (t.length + (k + 1)) - 1 = H.length + t.length + k by omega,
        behind_text, hc₀]
      exact fun heq => hne₀ (Option.some.inj heq)
    obtain ⟨c, hc, hclosed⟩ := loop_visits h hroom (by omega) (Nat.le_refl _) (Nat.le_refl _)
      (Nat.zero_add _).symm (by omega) (Or.inr hprev)
    rw [← Nat.add_assoc] at hc hclosed
    refine ⟨c, by rw [← behind_text H t R]; exact hc, fun heq => ?_⟩
    have hzero := hkeep _ (hclosed heq)
    have hsame := congrArg (fun l : Bytes => l[k + 1]?) hbeyond
    simp only [List.getElem?_drop] at hsame
    rw [hzero, hc, heq] at hsame
    exact absurd (Option.some.inj hsame) (by decide)

/-- What a split that went right says about the text and what stands behind it. -/
theorem quiet_of_split {d' : Bytes} {argv : List ℕ} (h0 : 0 ∉ t) (hcomma : comma ∈ t)
    (hsz : t.length ≤ sz) (h : Split (H ++ (t ++ 0 :: R)) H.length sz t d' argv) :
    Free [comma, comma] t ∧ Quiet R (H.length + t.length) (H.length + sz) := by
  obtain ⟨hrun, hfields, _, hbeyond⟩ := h
  rw [split_arguments_rest h0 hcomma] at hrun
  obtain ⟨⟨d₁, next, argv₁⟩, hloop, hrest⟩ := bind_ok hrun
  obtain ⟨⟨d₂, a⟩, htrim, hlast⟩ := bind_ok hrest
  simp only at hlast
  split at hlast
  · next hroom =>
    obtain ⟨rfl, rfl⟩ : d₂ = d' ∧ argv₁ ++ [a] = argv := by simpa using Except.ok.inj hlast
    have hlen := hfields.length_eq
    rw [List.length_append, List.length_singleton, arguments_length] at hlen
    have hkeep : ∀ q : ℕ, d₁[q]? = some 0 → d₂[q]? = some 0 := by
      intro q hq
      rcases (trim_blanks htrim).byte q 0 hq with hk | ⟨_, hk, _⟩
      · exact hk
      · exact hk
    have hquiet := loop_quiet (List.ne_nil_of_mem hcomma) hloop hroom (Nat.le_refl sz) hkeep hbeyond
    refine ⟨?_, hquiet⟩
    have hcount := loop_counts hloop hroom (by omega) (Nat.le_refl _) (Nat.zero_add sz).ge
    obtain ⟨m, rfl⟩ := Nat.exists_eq_add_of_le hsz
    rw [← Nat.add_assoc] at hquiet
    rw [Nat.add_zero, Nat.sub_zero, List.drop_left, List.take_length_add_append,
      seen_append false t hquiet.comma_free, List.length_nil] at hcount
    exact apart_of_seen (by omega)
  · cases hlast

/-- The exact condition for a text with a comma. -/
theorem split_iff (h0 : 0 ∉ t) (hcomma : comma ∈ t) (hsz : t.length ≤ sz) :
    (∃ d' argv, Split (H ++ (t ++ 0 :: R)) H.length sz t d' argv) ↔
      Free [comma, comma] t ∧ (arguments t).length ≤ 16 ∧
        Quiet R (H.length + t.length) (H.length + sz) := by
  constructor
  · rintro ⟨d', argv, h⟩
    obtain ⟨hapart, hquiet⟩ := quiet_of_split h0 hcomma hsz h
    have hlen := h.fields.length_eq
    have hslots := h.slots
    exact ⟨hapart, by omega, hquiet⟩
  · rintro ⟨hapart, hfits, hquiet⟩
    have hcount := arguments_length t
    obtain ⟨E, as, hrun, hE, hfields⟩ := @split_rest_fields H.length sz _ R t H sz 0 []
      (Or.inl rfl) h0 hapart (by rw [List.length_nil]; omega) rfl (by omega) hquiet (by omega)
    have hslots := hfields.length_eq
    refine ⟨H ++ (E ++ 0 :: R), as, ?_, hfields, by omega, ?_⟩
    · rw [split_arguments_rest h0 hcomma]
      exact hrun
    · rw [← hE, ← List.drop_drop, List.drop_left, List.drop_left, hE, ← List.drop_drop,
        List.drop_left, List.drop_left]

end Region

/-! ## The argument of a directive -/

theorem trimmed_trimmed (arg : Bytes) : trimmed (trimmed arg) = trimmed arg := by
  have hstripped : stripped (trimmed arg) = trimmed arg := by
    apply List.rdropWhile_eq_self_iff.mpr
    intro hne
    have hne' : List.rdropWhile isspace arg ≠ [] := by
      intro hnil
      apply hne
      rw [trimmed, stripped, hnil]
      rfl
    have hlast : (trimmed arg).getLast hne = (List.rdropWhile isspace arg).getLast hne' :=
      (List.dropWhile_suffix isspace).getLast hne
    rw [hlast]
    exact List.rdropWhile_last_not isspace arg hne'
  rw [trimmed, hstripped]
  exact List.dropWhile_idempotent isspace (stripped arg)

theorem closed_text (X arg Y : Bytes) : ∃ H,
    closedAt X TOk_FUNCTION arg Y = H ++ (trimmed arg ++
      0 :: (List.replicate (arg.length - (stripped arg).length) 0 ++ Y)) ∧
    H.length = X.length + TOk_FUNCTION.length + leading arg := by
  refine ⟨X ++ (TOk_FUNCTION ++ (stripped arg).takeWhile isspace), ?_, ?_⟩
  · have hnuls : List.replicate (arg.length - (stripped arg).length) 0 ++ 0 :: Y =
        0 :: (List.replicate (arg.length - (stripped arg).length) 0 ++ Y) := by
      rw [← List.cons_append, ← List.replicate_succ, List.replicate_succ', List.append_assoc]
      rfl
    have hwiped : wiped arg ++ 0 :: Y = (stripped arg).takeWhile isspace ++ (trimmed arg ++
        0 :: (List.replicate (arg.length - (stripped arg).length) 0 ++ Y)) := by
      rw [wiped, List.append_assoc, hnuls, ← stripped_split arg, List.append_assoc]
      rw [stripped_split]
    rw [closedAt, hwiped]
    simp only [List.append_assoc]
  · simp only [List.length_append, leading]
    omega

/-- The bytes that the loop still looks at behind the closed argument. -/
theorem quiet_behind_iff (Y : Bytes) (z stop : ℕ) (k : ℕ) :
    Quiet (List.replicate z 0 ++ Y) stop (stop + (z + k)) ↔
      k ≤ Y.length + 1 ∧ comma ∉ Y.take (k - 1) := by
  constructor
  · intro h
    have hget : ∀ j, j + 1 < k → ∃ c, Y[j]? = some c ∧ c ≠ comma := by
      intro j hj
      obtain ⟨c, hc, hne⟩ := h (z + j + 1) (by omega)
      refine ⟨c, ?_, hne⟩
      rw [List.getElem?_cons_succ, List.getElem?_append_right (by simp)] at hc
      simpa using hc
    refine ⟨?_, fun hmem => ?_⟩
    · by_contra hlt
      obtain ⟨c, hc, _⟩ := hget Y.length (by omega)
      simp at hc
    · obtain ⟨j, hj⟩ := List.getElem?_of_mem hmem
      obtain ⟨hlt, _⟩ := List.getElem?_eq_some_iff.mp hj
      rw [List.length_take] at hlt
      obtain ⟨c, hc, hne⟩ := hget j (by omega)
      rw [List.getElem?_take_of_lt (by omega), hc] at hj
      exact hne (Option.some.inj hj)
  · rintro ⟨hlen, hcomma⟩ j hj
    cases j with
    | zero => exact ⟨0, rfl, by decide⟩
    | succ j =>
      rw [List.getElem?_cons_succ]
      by_cases hjz : j < z
      · exact ⟨0, by rw [List.getElem?_append_left (by simpa using hjz)]; simp [hjz], by decide⟩
      · have hlt : j - z < Y.length := by omega
        rw [List.getElem?_append_right (by simpa using hjz), List.length_replicate]
        refine ⟨Y[j - z], List.getElem?_eq_getElem hlt, fun heq => hcomma ?_⟩
        rw [← heq]
        exact List.mem_take_iff_getElem.mpr ⟨j - z, by omega, rfl⟩

/-- No field is empty but the first and the last, there are slots for all of them, and as many
bytes as there were leading blanks follow the argument without a comma. -/
structure Splittable (arg Y : Bytes) : Prop where
  apart : Free [comma, comma] (trimmed arg)
  fits : (arguments (trimmed arg)).length ≤ 16
  inside : leading arg ≤ Y.length + 1
  unseparated : comma ∉ Y.take (leading arg - 1)

def SplitsRight (b : KoreBuf) (X arg : Bytes) : Prop :=
  ∃ buffer argument d' argv,
    closed_argument b (matchAt X TOk_FUNCTION arg) = .ok (buffer, argument) ∧
    Split buffer.data argument (matchAt X TOk_FUNCTION arg).argumentsz.toNat (trimmed arg) d' argv

/-- Arguments are split right exactly when there is one only or they are splittable. -/
theorem split_arguments_iff {b : KoreBuf} {X arg Y : Bytes}
    (h : LookedAt TOk_FUNCTION b.data X arg Y) :
    SplitsRight b X arg ↔ comma ∉ trimmed arg ∨ Splittable arg Y := by
  have hclosed : closed_argument b (matchAt X TOk_FUNCTION arg) =
      .ok (⟨closedAt X TOk_FUNCTION arg Y, b.length⟩,
        X.length + TOk_FUNCTION.length + leading arg) := closed_argument_at h.split h.plain.clean
  have h0 : 0 ∉ trimmed arg := fun hmem => h.plain.clean (trimmed_subset hmem)
  obtain ⟨H, hH, hlen⟩ := closed_text X arg Y
  have hsum := leading_add_trimmed arg
  have hle := stripped_length_le arg
  have hright : SplitsRight b X arg ↔ ∃ d' argv, Split (H ++ (trimmed arg ++
      0 :: (List.replicate (arg.length - (stripped arg).length) 0 ++ Y))) H.length arg.length
        (trimmed arg) d' argv := by
    rw [← hH, hlen]
    constructor
    · rintro ⟨buffer, argument, d', argv, hrun, hsplit⟩
      obtain ⟨rfl, rfl⟩ := Prod.mk.inj (Except.ok.inj (hclosed.symm.trans hrun))
      exact ⟨d', argv, hsplit⟩
    · rintro ⟨d', argv, hsplit⟩
      exact ⟨_, _, d', argv, hclosed, hsplit⟩
  rw [hright]
  by_cases hcomma : comma ∈ trimmed arg
  · have hbound : H.length + arg.length = H.length + (trimmed arg).length +
        (arg.length - (stripped arg).length + leading arg) := by omega
    rw [split_iff h0 hcomma (by omega), hbound, quiet_behind_iff]
    constructor
    · rintro ⟨hapart, hfits, hinside, hunsep⟩
      exact Or.inr ⟨hapart, hfits, hinside, hunsep⟩
    · rintro (hnone | ⟨hapart, hfits, hinside, hunsep⟩)
      · exact absurd hcomma hnone
      · exact ⟨hapart, hfits, hinside, hunsep⟩
  · refine ⟨fun _ => Or.inl hcomma, fun _ => ?_⟩
    exact ⟨_, _, split_single h0 hcomma (trimmed_trimmed arg)⟩

/-- `@function(now, utc)` -/
theorem split_arguments_two : SplitsRight (kore_buf_of (bytes "@function(now, utc)")) []
    (bytes "now, utc") :=
  (split_arguments_iff (Y := []) ⟨by decide, by decide, by decide, by decide⟩).mpr
    (Or.inr ⟨by decide, by decide +kernel, by decide, by decide⟩)

/-- An empty argument in the middle swallows the next comma. -/
theorem empty_argument_swallowed : ¬ ∀ (b : KoreBuf) (X arg Y : Bytes),
    LookedAt TOk_FUNCTION b.data X arg Y → SplitsRight b X arg := by
  intro hall
  obtain ⟨buffer, argument, d', argv, hclosed, hsplit⟩ :=
    hall (kore_buf_of (bytes "@function(f,,x)")) [] (bytes "f,,x") []
      ⟨by decide, by decide, by decide, by decide⟩
  have hrun : closed_argument (kore_buf_of (bytes "@function(f,,x)"))
      (matchAt [] TOk_FUNCTION (bytes "f,,x")) =
        .ok (⟨bytes "@function(f,,x" ++ [0], 15⟩, 10) := by decide +kernel
  obtain ⟨rfl, rfl⟩ := Prod.mk.inj (Except.ok.inj (hrun.symm.trans hclosed))
  have htwo : split_arguments (bytes "@function(f,,x" ++ [0]) 10 4 =
      .ok (bytes "@function(f" ++ 0 :: bytes ",x" ++ [0], [10, 12]) := by decide +kernel
  have hargv := (Prod.mk.inj (Except.ok.inj (htwo.symm.trans hsplit.run))).2
  have hlen := hsplit.fields.length_eq
  rw [← hargv] at hlen
  exact absurd hlen (by decide +kernel)

end ArgumentSplitting
