import Ayahesa.ViewDirectives

/-! # What argument handling leaves of a buffer

Trimming and splitting arguments write NULs over commas and blanks behind a position and
change nothing else, not even when they run beyond the argument they were called for. -/
namespace ViewArguments

open CMemory CompatStrings ViewPasses

/-- From `s` on some commas and blanks have become NULs. -/
structure Blanks (s : ℕ) (d d' : Bytes) : Prop where
  length : d'.length = d.length
  byte : ∀ i c, d[i]? = some c → d'[i]? = some c ∨
    (s ≤ i ∧ d'[i]? = some 0 ∧ (c = comma ∨ isspace c = true))

variable {s t : ℕ} {d d' d'' : Bytes}

theorem Blanks.refl (s : ℕ) (d : Bytes) : Blanks s d d := ⟨rfl, fun _ _ h => Or.inl h⟩

theorem Blanks.mono (h : Blanks t d d') (hst : s ≤ t) : Blanks s d d' := by
  refine ⟨h.length, ?_⟩
  intro i c hc
  rcases h.byte i c hc with hk | ⟨ht, hz, hb⟩
  · exact Or.inl hk
  · exact Or.inr ⟨by omega, hz, hb⟩

theorem Blanks.trans (h : Blanks s d d') (h' : Blanks s d' d'') : Blanks s d d'' := by
  refine ⟨h'.length.trans h.length, ?_⟩
  intro i c hc
  rcases h.byte i c hc with hk | ⟨hs, hz, hb⟩
  · exact h'.byte i c hk
  · rcases h'.byte i 0 hz with hk | ⟨_, hz', _⟩
    · exact Or.inr ⟨hs, hk, hb⟩
    · exact Or.inr ⟨hs, hz', hb⟩

theorem Blanks.set {i : ℕ} {c : UInt8} (hs : s ≤ i) (hc : d[i]? = some c)
    (hb : c = comma ∨ isspace c = true) : Blanks s d (d.set i 0) := by
  refine ⟨List.length_set, ?_⟩
  intro j e he
  by_cases hij : i = j
  · subst hij
    obtain rfl : c = e := Option.some.inj (hc.symm.trans he)
    refine Or.inr ⟨hs, ?_, hb⟩
    rw [List.getElem?_set_self (List.getElem?_eq_some_iff.mp hc).1]
  · exact Or.inl (by rw [List.getElem?_set_ne hij, he])

theorem rstripLoop_blanks (d : Bytes) (s n : ℕ) : Blanks s d (rstripLoop d s n) := by
  induction n generalizing d with
  | zero => exact .refl s d
  | succ n ih =>
    simp only [rstripLoop]
    split
    · next hsp =>
      cases hc : d[s + n]? with
      | none =>
        -- A byte outside the region reads as NUL here, and NUL is no blank.
        rw [List.getD_eq_getElem?_getD, hc] at hsp
        cases hsp
      | some c =>
        rw [List.getD_eq_getElem?_getD, hc] at hsp
        exact (Blanks.set (by omega) hc (Or.inr hsp)).trans (ih _)
    · exact .refl s d

theorem trim_blanks {a : ℕ} (h : trim d s = .ok (d', a)) : Blanks s d d' := by
  obtain ⟨e, he, h⟩ := bind_ok h
  obtain ⟨n, _, h⟩ := bind_ok h
  obtain ⟨m, _, he⟩ := bind_ok he
  obtain rfl := (Prod.mk.inj (Except.ok.inj h)).1
  rw [← Except.ok.inj he]
  exact rstripLoop_blanks d s m

theorem split_arguments_loop_blanks {cmdline cmdlinesz n i next next' : ℕ} {argv argv' : List ℕ}
    (hn : cmdline ≤ next)
    (h : split_arguments_loop cmdline cmdlinesz n d i next argv = .ok (d', next', argv')) :
    Blanks cmdline d d' ∧ cmdline ≤ next' := by
  induction n generalizing d i next argv with
  | zero =>
    obtain ⟨rfl, rfl, _⟩ : d = d' ∧ next = next' ∧ argv = argv' := by
      simpa [split_arguments_loop] using h
    exact ⟨.refl _ _, hn⟩
  | succ n ih =>
    simp only [split_arguments_loop] at h
    split at h
    · obtain ⟨c, hload, h⟩ := bind_ok h
      split at h
      · next hc =>
        obtain ⟨d₁, hstore, h⟩ := bind_ok h
        obtain ⟨⟨d₂, a⟩, htrim, h⟩ := bind_ok h
        have hset : Blanks cmdline d d₁ := by
          unfold store at hstore
          split at hstore
          · rw [← Except.ok.inj hstore]
            exact .set (by omega) (get_of_load hload) (Or.inl hc)
          · cases hstore
        obtain ⟨hrest, hnext⟩ := ih (by omega) h
        exact ⟨(hset.trans ((trim_blanks htrim).mono hn)).trans hrest, hnext⟩
      · exact ih hn h
    · obtain ⟨rfl, rfl, _⟩ : d = d' ∧ next = next' ∧ argv = argv' := by simpa using h
      exact ⟨.refl _ _, hn⟩

theorem split_arguments_blanks {cmdline cmdlinesz : ℕ} {argv : List ℕ}
    (h : split_arguments d cmdline cmdlinesz = .ok (d', argv)) : Blanks cmdline d d' := by
  obtain ⟨hit, _, h⟩ := bind_ok h
  cases hit with
  | none =>
    obtain rfl := (Prod.mk.inj (Except.ok.inj h)).1
    exact .refl _ _
  | some p =>
    obtain ⟨⟨d₁, next, argv₁⟩, hloop, h⟩ := bind_ok h
    obtain ⟨⟨d₂, a⟩, htrim, h⟩ := bind_ok h
    obtain ⟨hb, hn⟩ := split_arguments_loop_blanks (Nat.le_refl cmdline) hloop
    have hb₂ := hb.trans ((trim_blanks htrim).mono hn)
    simp only at h
    split at h
    · obtain rfl := (Prod.mk.inj (Except.ok.inj h)).1
      exact hb₂
    · cases h

/-- A source of texts that does no more to the buffer than argument handling. -/
def Blanking (text : Bytes → ℕ → ℕ → C (Bytes × Option Bytes)) : Prop :=
  ∀ d p sz d' str, text d p sz = .ok (d', str) → Blanks p d d'

theorem named_text_blanking (lookup : Bytes → Option Bytes) : Blanking (named_text lookup) := by
  intro d p sz d' str h
  obtain ⟨_, _, h⟩ := bind_ok h
  obtain rfl := (Prod.mk.inj (Except.ok.inj h)).1
  exact .refl p d

theorem function_text_blanking (S : Symbols) : Blanking (function_text S) := by
  intro d p sz d' str h
  obtain ⟨⟨d₁, argv⟩, hsplit, h⟩ := bind_ok h
  have hb := split_arguments_blanks hsplit
  simp only at h
  split at h
  · obtain rfl := (Prod.mk.inj (Except.ok.inj h)).1
    exact hb
  · obtain ⟨args, _, h⟩ := bind_ok h
    split at h
    · cases h
    · obtain rfl := (Prod.mk.inj (Except.ok.inj h)).1
      exact hb

theorem Blanks.take {n : ℕ} (h : Blanks s d d') (hn : n ≤ s) : d'.take n = d.take n := by
  apply List.ext_getElem?
  intro i
  by_cases hi : i < n
  · rw [List.getElem?_take_of_lt hi, List.getElem?_take_of_lt hi]
    cases hc : d[i]? with
    | none =>
      rw [List.getElem?_eq_none_iff] at hc ⊢
      rw [h.length]
      exact hc
    | some c =>
      rcases h.byte i c hc with hk | ⟨hs, _, _⟩
      · exact hk
      · omega
  · simp [hi]

theorem Blanks.drop (h : Blanks s d d') (n : ℕ) : Blanks 0 (d.drop n) (d'.drop n) := by
  refine ⟨by simp [h.length], ?_⟩
  intro i c hc
  rw [List.getElem?_drop] at hc ⊢
  rcases h.byte (n + i) c hc with hk | ⟨_, hz, hb⟩
  · exact Or.inl hk
  · exact Or.inr ⟨Nat.zero_le i, hz, hb⟩

theorem Blanks.cons_zero {e Y : Bytes} (h : Blanks 0 (0 :: Y) e) :
    ∃ Y', e = 0 :: Y' ∧ Blanks 0 Y Y' := by
  rcases e with _ | ⟨z, Y'⟩
  · exact absurd h.length (by simp)
  · have hz : z = 0 := by
      rcases h.byte 0 0 rfl with hk | ⟨_, hk, _⟩
      · exact Option.some.inj hk
      · exact Option.some.inj hk
    exact ⟨Y', by rw [hz], by simpa using h.drop 1⟩

theorem Blanks.append {a a' b b' : Bytes} (ha : Blanks 0 a a') (hb : Blanks 0 b b') :
    Blanks 0 (a ++ b) (a' ++ b') := by
  refine ⟨by rw [List.length_append, List.length_append, ha.length, hb.length], ?_⟩
  intro i c hc
  by_cases hi : i < a.length
  · rw [List.getElem?_append_left hi] at hc
    rw [List.getElem?_append_left (by rw [ha.length]; exact hi)]
    exact ha.byte i c hc
  · rw [List.getElem?_append_right (by omega)] at hc
    rw [List.getElem?_append_right (by rw [ha.length]; omega), ha.length]
    rcases hb.byte (i - a.length) c hc with hk | ⟨_, hz, hbl⟩
    · exact Or.inl hk
    · exact Or.inr ⟨Nat.zero_le i, hz, hbl⟩

theorem Blanks.split {a' b' : Bytes} (h : Blanks 0 d (a' ++ b')) :
    ∃ a b, d = a ++ b ∧ Blanks 0 a a' ∧ Blanks 0 b b' := by
  have hlen := h.length
  rw [List.length_append] at hlen
  refine ⟨d.take a'.length, d.drop a'.length, (List.take_append_drop _ _).symm, ⟨?_, ?_⟩, ?_⟩
  · rw [List.length_take]
    omega
  · intro i c hc
    obtain ⟨hi, hci⟩ := List.getElem?_eq_some_iff.mp hc
    rw [List.length_take] at hi
    rw [List.getElem?_take_of_lt (by omega)] at hc
    have hbyte := h.byte i c hc
    rwa [List.getElem?_append_left (by omega)] at hbyte
  · have hdrop := h.drop a'.length
    rwa [List.drop_left] at hdrop

theorem Blanks.eq_of_clean (h : Blanks s d d') (h0 : 0 ∉ d') : d = d' := by
  apply List.ext_getElem?
  intro i
  cases hc : d[i]? with
  | none =>
    rw [List.getElem?_eq_none_iff] at hc
    exact (List.getElem?_eq_none_iff.mpr (by rw [h.length]; exact hc)).symm
  | some c =>
    rcases h.byte i c hc with hk | ⟨_, hz, _⟩
    · exact hk.symm
    · exact absurd (List.mem_of_getElem? hz) h0

end ViewArguments
