import Ayahesa.CookieLookup

/-! # Tokens that are cut out in place

`strtok` writes a NUL behind the token that it finds, so a string that was cut ends there for
everybody who reads it later. -/
namespace StringTokens

open CMemory DelimitedFields CookieLookup

/-- `strtok` on the string at a place: the place of the token or NULL, where the next call goes on,
and the storage. -/
def strtok_at (d : Bytes) (p : ℕ) (delim : Bytes) : C (Option ℕ × ℕ × Bytes) := do
  let skipped ← scan (fun c => !delim.contains c) (d.drop p)
  let pch := p + skipped
  let first ← load d pch
  if first = 0 then return (none, pch, d)
  let len ← scan (fun c => c = 0 || delim.contains c) (d.drop pch)
  let stop := pch + len
  let last ← load d stop
  if last = 0 then return (some pch, stop, d)
  let d ← store d stop 0
  return (some pch, stop + 1, d)

theorem strtok_at_advances {d d' delim : Bytes} {p pch next : ℕ}
    (h : strtok_at d p delim = .ok (some pch, next, d')) : d'.length - next < d.length - p := by
  obtain ⟨skipped, -, h⟩ := bind_ok h
  obtain ⟨first, hfirst, h⟩ := bind_ok h
  split at h
  · cases h
  · next hne =>
    obtain ⟨len, -, h⟩ := bind_ok h
    obtain ⟨last, hlast, h⟩ := bind_ok h
    have hlt := (List.getElem?_eq_some_iff.mp (get_of_load hlast)).1
    split at h
    · next hzero =>
      obtain ⟨-, rfl, rfl⟩ : _ ∧ p + skipped + len = next ∧ d = d' := by
        simpa [pure, Except.pure] using h
      have hpos : len ≠ 0 := by
        rintro rfl
        exact hne (Except.ok.inj (hfirst.symm.trans hlast) ▸ hzero)
      omega
    · obtain ⟨stored, hstore, h⟩ := bind_ok h
      obtain ⟨-, rfl, rfl⟩ : _ ∧ p + skipped + len + 1 = next ∧ stored = d' := by
        simpa [pure, Except.pure] using h
      obtain ⟨-, rfl⟩ := store_ok hstore
      simp only [List.length_append, List.length_take, List.length_cons, List.length_drop]
      omega

/-! ## What a call of `strtok` leaves -/

/-- The delimiters in front of the first token, and the token. -/
def first_token (delim text : Bytes) : Bytes :=
  text.takeWhile (delim.contains ·) ++
    (text.dropWhile (delim.contains ·)).takeWhile fun c => !delim.contains c

/-- A text with a token: what stands in front of the token and where the next call goes on. -/
structure Cut (delim text front word tail rest : Bytes) : Prop where
  token : strtok text delim = (some word, rest)
  first : first_token delim text = front ++ word
  front_blank : ∀ c ∈ front, delim.contains c = true
  word_clean : 0 ∉ word
  rest_clean : 0 ∉ rest
  tail : tail = [0] ∨ tail = [] ∧ rest = []

section Strtok

variable {delim text : Bytes}

theorem strtok_at_none (left right : Bytes) (hdelim : 0 ∉ delim)
    (hnil : text.dropWhile (delim.contains ·) = []) :
    strtok_at (left ++ (text ++ 0 :: right)) left.length delim =
      .ok (none, left.length + text.length, left ++ (text ++ 0 :: right)) := by
  have hall : ∀ c ∈ text, (!delim.contains c) = false := by
    intro c hc
    simpa using List.dropWhile_eq_nil_iff.mp hnil c hc
  have hscan : scan (fun c => !delim.contains c) ((left ++ (text ++ 0 :: right)).drop left.length) =
      .ok text.length := by
    rw [List.drop_left]
    exact scan_hit right hall (by simpa using hdelim)
  have hload : load (left ++ (text ++ 0 :: right)) (left.length + text.length) = .ok 0 := by
    apply load_of_get
    simp
  simp only [strtok_at, hscan, hload, bind, Except.bind, pure, Except.pure, if_true]

/-- A token ends at a delimiter, which becomes a NUL, or at the NUL of the string. -/
theorem strtok_at_word (left right : Bytes) {front word : Bytes} {c : UInt8}
    (hfront : ∀ x ∈ front, delim.contains x = true)
    (hword : ∀ x ∈ word, x ≠ 0 ∧ delim.contains x = false) (hne : word ≠ [])
    (hend : c = 0 ∨ delim.contains c = true) :
    strtok_at (left ++ (front ++ (word ++ c :: right))) left.length delim =
      .ok (some (left ++ front).length,
        if c = 0 then (left ++ front ++ word).length else (left ++ front ++ word).length + 1,
        left ++ (front ++ (word ++ 0 :: right))) := by
  obtain ⟨w, more, rfl⟩ := List.exists_cons_of_ne_nil hne
  obtain ⟨hw, hwdelim⟩ := hword w List.mem_cons_self
  have hskip : scan (fun x => !delim.contains x)
      ((left ++ (front ++ (w :: more ++ c :: right))).drop left.length) = .ok front.length := by
    rw [List.drop_left]
    apply scan_hit
    · intro x hx
      simpa using hfront x hx
    · rw [hwdelim]
      rfl
  -- the region as seen from the token and from the byte that ends it
  have htoken : left ++ (front ++ (w :: more ++ c :: right)) =
      left ++ front ++ w :: (more ++ c :: right) := by
    simp only [List.append_assoc, List.cons_append]
  have hstop : left ++ front ++ w :: (more ++ c :: right) =
      left ++ front ++ (w :: more) ++ c :: right := by
    simp only [List.append_assoc, List.cons_append]
  have hlen : scan (fun x => x = 0 || delim.contains x)
      ((left ++ front ++ w :: (more ++ c :: right)).drop (left ++ front).length) =
        .ok (w :: more).length := by
    rw [List.drop_left, ← List.cons_append]
    apply scan_hit
    · intro x hx
      obtain ⟨hzero, hdelim⟩ := hword x hx
      simp only [hzero, hdelim, decide_false, Bool.or_false]
    · simpa using hend
  have hpch : left.length + front.length = (left ++ front).length := List.length_append.symm
  have hplace : (left ++ front).length + (w :: more).length =
      (left ++ front ++ (w :: more)).length := List.length_append.symm
  rw [strtok_at, hskip, htoken]
  simp only [hpch, load_at, if_neg hw, hlen, hplace, bind, Except.bind, pure, Except.pure]
  rw [hstop]
  simp only [load_at, store_at]
  by_cases hc : c = 0
  · subst hc
    simp only [if_true, List.append_assoc]
  · simp only [if_neg hc, List.append_assoc]

theorem token_cases (delim text : Bytes) :
    text.dropWhile (delim.contains ·) = [] ∨
    ∃ front word after, text = front ++ (word ++ after) ∧
      (∀ x ∈ front, delim.contains x = true) ∧ (∀ x ∈ word, delim.contains x = false) ∧
      word ≠ [] ∧ (after = [] ∨ ∃ c more, after = c :: more ∧ delim.contains c = true) ∧
      strtok text delim = (some word, after.drop 1) ∧
      first_token delim text = front ++ word := by
  by_cases hnil : text.dropWhile (delim.contains ·) = []
  · exact Or.inl hnil
  · refine Or.inr ⟨text.takeWhile (delim.contains ·),
      (text.dropWhile (delim.contains ·)).takeWhile fun c => !delim.contains c,
      (text.dropWhile (delim.contains ·)).dropWhile fun c => !delim.contains c,
      ?_, fun x hx => List.mem_takeWhile_imp hx, ?_, ?_, ?_, if_neg hnil, rfl⟩
    · rw [List.takeWhile_append_dropWhile, List.takeWhile_append_dropWhile]
    · intro x hx
      simpa using List.mem_takeWhile_imp hx
    · have hhead := List.head?_dropWhile_not (delim.contains ·) text
      obtain ⟨w, more, hw⟩ := List.exists_cons_of_ne_nil hnil
      rw [hw] at hhead ⊢
      have hwdelim : delim.contains w = false := by simpa using hhead
      rw [List.takeWhile_cons_of_pos (by rw [hwdelim]; rfl)]
      exact List.cons_ne_nil _ _
    · have hhead := List.head?_dropWhile_not (fun c => !delim.contains c)
        (text.dropWhile (delim.contains ·))
      cases hafter : (text.dropWhile (delim.contains ·)).dropWhile fun c => !delim.contains c with
      | nil => exact Or.inl rfl
      | cons c more =>
        rw [hafter] at hhead
        exact Or.inr ⟨c, more, rfl, by simpa using hhead⟩

theorem first_token_blank (h : text.dropWhile (delim.contains ·) = []) :
    first_token delim text = text := by
  have hsplit := List.takeWhile_append_dropWhile (p := (delim.contains ·)) (l := text)
  rw [first_token, h, List.takeWhile_nil]
  rwa [h] at hsplit

theorem strtok_at_cases (left right : Bytes) (hdelim : 0 ∉ delim) (hclean : 0 ∉ text) :
    (strtok text delim = (none, []) ∧ first_token delim text = text ∧
      strtok_at (left ++ (text ++ 0 :: right)) left.length delim =
        .ok (none, left.length + text.length, left ++ (text ++ 0 :: right))) ∨
    ∃ front word tail rest, Cut delim text front word tail rest ∧
      strtok_at (left ++ (text ++ 0 :: right)) left.length delim =
        .ok (some (left ++ front).length, (left ++ (front ++ (word ++ tail))).length,
          left ++ (front ++ (word ++ tail)) ++ (rest ++ 0 :: right)) := by
  rcases token_cases delim text with
    hnil | ⟨front, word, after, rfl, hfront, hword, hne, hafter, htok, hfirst⟩
  · refine Or.inl ⟨?_, first_token_blank hnil, strtok_at_none left right hdelim hnil⟩
    rw [strtok, if_pos hnil]
  · right
    have hwclean : 0 ∉ word := fun h =>
      hclean (List.mem_append_right _ (List.mem_append_left _ h))
    have hsafe : ∀ x ∈ word, x ≠ 0 ∧ delim.contains x = false := by
      intro x hx
      exact ⟨fun h => hwclean (h ▸ hx), hword x hx⟩
    rcases hafter with rfl | ⟨c, more, rfl, hc⟩
    · refine ⟨front, word, [], [], ⟨htok, hfirst, hfront, hwclean, List.not_mem_nil,
        Or.inr ⟨rfl, rfl⟩⟩, ?_⟩
      have hcall := strtok_at_word left right hfront hsafe hne (Or.inl rfl)
      rw [if_pos rfl] at hcall
      simpa only [List.append_assoc, List.append_nil, List.nil_append] using hcall
    · have hc0 : c ≠ 0 := by
        rintro rfl
        exact hclean (by simp)
      have hmore : 0 ∉ more := by
        intro h
        apply hclean
        simp [h]
      refine ⟨front, word, [0], more, ⟨htok, hfirst, hfront, hwclean, hmore, Or.inl rfl⟩, ?_⟩
      have hcall := strtok_at_word left (more ++ 0 :: right) hfront hsafe hne (Or.inr hc)
      rw [if_neg hc0] at hcall
      have hnext : (left ++ front ++ word).length + 1 =
          (left ++ (front ++ (word ++ [0]))).length := by
        simp only [List.length_append, List.length_singleton]
        omega
      rw [hnext] at hcall
      simpa only [List.append_assoc, List.cons_append, List.nil_append] using hcall

theorem Cut.front_eq {front word tail rest : Bytes} (hcut : Cut delim text front word tail rest)
    {x : Bytes} (hx : rest = [] → x = []) (r : Bytes) :
    ∃ right, tail ++ (x ++ 0 :: r) = 0 :: right := by
  rcases hcut.tail with rfl | ⟨rfl, hrest⟩
  · exact ⟨x ++ 0 :: r, rfl⟩
  · rw [hx hrest]
    exact ⟨r, rfl⟩

/-- The storage behind the call, read from the token and from where the call was made. -/
theorem Cut.region {front word tail rest : Bytes} (hcut : Cut delim text front word tail rest)
    (left : Bytes) {x : Bytes} (hx : rest = [] → x = []) (r : Bytes) :
    ∃ right,
      left ++ (front ++ (word ++ tail)) ++ (x ++ 0 :: r) = left ++ front ++ (word ++ 0 :: right) ∧
      left ++ (front ++ (word ++ tail)) ++ (x ++ 0 :: r) =
        left ++ (first_token delim text ++ 0 :: right) := by
  obtain ⟨right, hright⟩ := hcut.front_eq hx r
  refine ⟨right, ?_, ?_⟩
  · rw [← hright]
    simp only [List.append_assoc]
  · rw [hcut.first, ← hright]
    simp only [List.append_assoc]

theorem Cut.read {front word tail rest : Bytes} (hcut : Cut delim text front word tail rest)
    (left right : Bytes) :
    cstr (left ++ (front ++ (word ++ tail)) ++ (rest ++ 0 :: right)) (left ++ front).length =
      .ok word := by
  obtain ⟨right', hright, -⟩ := hcut.region left (fun h => h) right
  rw [hright]
  exact cstr_at right' hcut.word_clean

theorem strtok_at_found (left right : Bytes) {word rest : Bytes} (hdelim : 0 ∉ delim)
    (hclean : 0 ∉ text) (htok : strtok text delim = (some word, rest)) :
    ∃ front tail, Cut delim text front word tail rest ∧
      strtok_at (left ++ (text ++ 0 :: right)) left.length delim =
        .ok (some (left ++ front).length, (left ++ (front ++ (word ++ tail))).length,
          left ++ (front ++ (word ++ tail)) ++ (rest ++ 0 :: right)) := by
  rcases strtok_at_cases left right hdelim hclean with
    ⟨hnone, -, -⟩ | ⟨front, word', tail, rest', hcut, hcall⟩
  · cases hnone.symm.trans htok
  · cases hcut.token.symm.trans htok
    exact ⟨front, tail, hcut, hcall⟩

theorem strtok_at_keeps (left right : Bytes) (hdelim : 0 ∉ delim) (hclean : 0 ∉ text) :
    ∃ pch next right', strtok_at (left ++ (text ++ 0 :: right)) left.length delim =
        .ok (pch, next, left ++ (first_token delim text ++ 0 :: right')) ∧
      pch.mapM (cstr (left ++ (first_token delim text ++ 0 :: right'))) =
        .ok (strtok text delim).1 := by
  rcases strtok_at_cases left right hdelim hclean with
    ⟨htok, hfirst, hcall⟩ | ⟨front, word, tail, rest, hcut, hcall⟩
  · refine ⟨none, left.length + text.length, right, ?_, ?_⟩
    · rw [hfirst]
      exact hcall
    · rw [htok]
      rfl
  · obtain ⟨right', -, hright⟩ := hcut.region left (fun h => h) right
    have hread := hcut.read left right
    rw [hright] at hcall hread
    refine ⟨_, _, right', hcall, ?_⟩
    simp only [Option.mapM_some, hread, hcut.token]
    rfl

end Strtok

/-! ## The string that is left -/

theorem first_token_subset {delim text : Bytes} {c : UInt8} (h : c ∈ first_token delim text) :
    c ∈ text := by
  rcases List.mem_append.mp h with h | h
  · exact (List.takeWhile_subset _) h
  · exact (List.dropWhile_suffix _).subset ((List.takeWhile_subset _) h)

theorem first_token_clean {delim text : Bytes} (h : 0 ∉ text) : 0 ∉ first_token delim text :=
  fun h0 => h (first_token_subset h0)

theorem first_token_of {delim front word : Bytes} (hfront : ∀ x ∈ front, delim.contains x = true)
    (hword : ∀ x ∈ word, delim.contains x = false) :
    first_token delim (front ++ word) = front ++ word := by
  have hall : ∀ x ∈ word, (!delim.contains x) = true := fun x hx => by rw [hword x hx]; rfl
  have hdrop : word.dropWhile (delim.contains ·) = word := by
    cases word with
    | nil => rfl
    | cons w more =>
      rw [List.dropWhile_cons_of_neg (by rw [hword w List.mem_cons_self]; exact Bool.false_ne_true)]
  have htake : word.takeWhile (delim.contains ·) = [] := by
    have hsplit := List.takeWhile_append_dropWhile (p := (delim.contains ·)) (l := word)
    rw [hdrop] at hsplit
    exact List.append_left_eq_self.mp hsplit
  rw [first_token, List.takeWhile_append_of_pos hfront, List.dropWhile_append_of_pos hfront, hdrop,
    htake, List.append_nil, List.takeWhile_eq_self_iff.mpr hall]

theorem first_token_first_token (delim text : Bytes) :
    first_token delim (first_token delim text) = first_token delim text := by
  rcases token_cases delim text with hnil | ⟨front, word, after, -, hfront, hword, -, -, -, h⟩
  · rw [first_token_blank hnil, first_token_blank hnil]
  · rw [h, first_token_of hfront hword]

theorem first_token_at_start (delim text : Bytes) : first_token delim text <+: text := by
  rcases token_cases delim text with hnil | ⟨front, word, after, rfl, -, -, -, -, -, h⟩
  · rw [first_token_blank hnil]
  · rw [h, ← List.append_assoc]
    exact List.prefix_append _ _

theorem first_token_eq_iff (delim text : Bytes) : first_token delim text = text ↔
    ∀ c ∈ text.dropWhile (delim.contains ·), delim.contains c = false := by
  have hsplit := List.takeWhile_append_dropWhile (p := (delim.contains ·)) (l := text)
  have hcancel : first_token delim text = text ↔
      (text.dropWhile (delim.contains ·)).takeWhile (fun c => !delim.contains c) =
        text.dropWhile (delim.contains ·) := by
    constructor
    · intro h
      exact List.append_cancel_left (h.trans hsplit.symm)
    · intro h
      rw [first_token, h]
      exact hsplit
  rw [hcancel, List.takeWhile_eq_self_iff]
  simp only [Bool.not_eq_true']

/-- Where the delimiters are mapped to delimiters, and nothing else is, the first token is that of
the text before. -/
theorem first_token_map {delim : Bytes} {f : UInt8 → UInt8}
    (h : (delim.contains ·) ∘ f = (delim.contains ·)) (text : Bytes) :
    first_token delim (text.map f) = (first_token delim text).map f := by
  have hother : (fun c => !delim.contains c) ∘ f = fun c => !delim.contains c := by
    funext c
    exact congrArg (! ·) (congrFun h c)
  rw [first_token, first_token, List.map_append, List.takeWhile_map, List.dropWhile_map,
    List.takeWhile_map, h, hother]

theorem words_first_token (delim text : Bytes) :
    words (delim.contains ·) (first_token delim text) =
      (words (delim.contains ·) text).take 1 := by
  have htok := (strtok_words text delim).1
  rcases token_cases delim text with hnil | ⟨front, word, after, -, hfront, hword, hne, -, hcut, h⟩
  · rw [strtok, if_pos hnil] at htok
    have hwords := List.head?_eq_none_iff.mp htok.symm
    rw [first_token_blank hnil, hwords]
    rfl
  · rw [hcut] at htok
    obtain ⟨more, hmore⟩ := List.head?_eq_some_iff.mp htok.symm
    rw [h, words_of_front hfront, words_of_clean hword hne, hmore]
    rfl

end StringTokens
