import Mathlib.Data.List.Count
import Mathlib.Data.List.TakeWhile

/-! # Texts of keywords and values

Pairs `keyword = value` stand between blanks. A value ends at a blank, unless it is quoted; an
escape takes the next item as it is, in quotes and outside of them. -/
namespace KeywordText

variable {α : Type*} [DecidableEq α]

structure Signs (α : Type*) where
  blank : α → Bool
  equals : α
  quote : α
  escape : α
  equals_solid : blank equals = false
  quote_solid : blank quote = false
  escape_solid : blank escape = false

variable (S : Signs α)

def plain_value : List α → List α × List α
  | [] => ([], [])
  | c :: text =>
    if S.blank c then ([], text)
    else if c = S.escape then
      match text with
      | [] => ([], [])
      | d :: text => (d :: (plain_value text).1, (plain_value text).2)
    else (c :: (plain_value text).1, (plain_value text).2)

/-- A value in quotes, from behind the first one on. -/
def quoted_value : List α → Option (List α × List α)
  | [] => none
  | c :: text =>
    if c = S.escape then
      match text with
      | [] => none
      | d :: text => (quoted_value text).map fun (value, rest) => (d :: value, rest)
    else if c = S.quote then some ([], text)
    else (quoted_value text).map fun (value, rest) => (c :: value, rest)

def value (text : List α) : Option (List α × List α) :=
  match text.dropWhile S.blank with
  | [] => some ([], [])
  | c :: text => if c = S.quote then quoted_value S text else some (plain_value S (c :: text))

def keyword (text : List α) : Option (List α × List α) :=
  let name := text.takeWhile fun c => c ≠ S.equals ∧ S.blank c = false
  match (text.drop name.length).dropWhile S.blank with
  | [] => none
  | c :: rest => if c = S.equals then some (name, rest) else none

def pairs : ℕ → List α → Option (List (List α × List α))
  | 0, text => if text.dropWhile S.blank = [] then some [] else none
  | n + 1, text =>
    if text.dropWhile S.blank = [] then some []
    else do
      let (name, text) ← keyword S (text.dropWhile S.blank)
      let (v, text) ← value S text
      let more ← pairs n text
      return (name, v) :: more

/-- All pairs of a text; each of them takes at least one item of it. -/
def read (text : List α) : Option (List (List α × List α)) := pairs S text.length text

/-- The values that stand for themselves. -/
structure Readable (v : List α) : Prop where
  solid : ∀ c ∈ v, S.blank c = false
  unescaped : S.escape ∉ v
  unquoted : v.head? ≠ some S.quote

/-- An item that a reader hands on wherever it stands. -/
def Ordinary (c : α) : Bool := !S.blank c && decide (c ≠ S.escape) && decide (c ≠ S.quote)

section Value

variable {S} {text v rest consumed : List α} {c sep : α}

theorem plain_value_blank (text : List α) (h : S.blank c = true) :
    plain_value S (c :: text) = ([], text) := by
  rw [plain_value.eq_def]
  simp [h]

theorem plain_value_other (text : List α) (h : S.blank c = false) (hne : c ≠ S.escape) :
    plain_value S (c :: text) =
      (c :: (plain_value S text).1, (plain_value S text).2) := by
  rw [plain_value.eq_def]
  simp [h, hne]

theorem plain_value_escape (c : α) (text : List α) :
    plain_value S (S.escape :: c :: text) =
      (c :: (plain_value S text).1, (plain_value S text).2) := by
  rw [plain_value.eq_def]
  simp [S.escape_solid]

theorem plain_value_end : plain_value S [S.escape] = ([], []) := by
  rw [plain_value.eq_def]
  simp [S.escape_solid]

theorem not_ordinary_escape : Ordinary S S.escape = false := by simp [Ordinary]

/-- What a value without quotes is made of: escapes get lost, ordinary items do not, and without
an escape nothing stands in it that would end it. -/
theorem plain_value_spec (text : List α) :
    ∃ consumed, text = consumed ++ (plain_value S text).2 ∧
      (plain_value S text).1.countP (Ordinary S) = consumed.countP (Ordinary S) ∧
      (plain_value S text).1.count S.escape ≤ consumed.count S.escape ∧
      ((plain_value S text).1.count S.escape = consumed.count S.escape →
        ∀ c ∈ (plain_value S text).1, S.blank c = false ∧ c ≠ S.escape) := by
  induction text using plain_value.induct S with
  | case1 => exact ⟨[], by simp [plain_value]⟩
  | case2 c text hblank =>
    rw [plain_value_blank text hblank]
    have hne : c ≠ S.escape := fun h => by simp [h, S.escape_solid] at hblank
    exact ⟨[c], rfl, by simp [Ordinary, hblank], by simp, fun _ x hx => nomatch hx⟩
  | case3 =>
    rw [plain_value_end]
    exact ⟨[S.escape], rfl, by simp [not_ordinary_escape], by simp, fun _ x hx => nomatch hx⟩
  | case4 d text _ ih =>
    obtain ⟨consumed, hsplit, hordinary, hescape, -⟩ := ih
    rw [plain_value_escape]
    refine ⟨S.escape :: d :: consumed, ?_, ?_, ?_, ?_⟩
    · exact congrArg (fun t => S.escape :: d :: t) hsplit
    · simp only [List.countP_cons, hordinary, not_ordinary_escape]
      simp
    · simp only [List.count_cons, beq_self_eq_true, if_true]
      omega
    · intro h
      simp only [List.count_cons, beq_self_eq_true, if_true] at h
      omega
  | case5 c text hblank hne ih =>
    obtain ⟨consumed, hsplit, hordinary, hescape, hclean⟩ := ih
    rw [plain_value_other text (by simpa using hblank) hne]
    refine ⟨c :: consumed, congrArg (c :: ·) hsplit, ?_, ?_, ?_⟩
    · simp only [List.countP_cons, hordinary]
    · simp only [List.count_cons]
      omega
    · intro h x hx
      simp only [List.count_cons] at h
      rcases List.mem_cons.mp hx with rfl | hx
      · exact ⟨by simpa using hblank, hne⟩
      · exact hclean (by omega) x hx

theorem quoted_value_spec {text v rest : List α} (h : quoted_value S text = some (v, rest)) :
    ∃ consumed, text = consumed ++ rest ∧
      v.countP (Ordinary S) = consumed.countP (Ordinary S) ∧ v.length < consumed.length := by
  induction text using quoted_value.induct S generalizing v rest with
  | case1 => simp [quoted_value] at h
  | case2 => simp [quoted_value] at h
  | case3 d text ih =>
    rw [quoted_value, if_pos rfl, Option.map_eq_some_iff] at h
    obtain ⟨⟨w, r⟩, hread, heq⟩ := h
    obtain ⟨rfl, rfl⟩ := Prod.mk.inj heq
    obtain ⟨consumed, hsplit, hordinary, hlen⟩ := ih hread
    refine ⟨S.escape :: d :: consumed, congrArg (fun t => S.escape :: d :: t) hsplit, ?_, ?_⟩
    · simp only [List.countP_cons, hordinary, not_ordinary_escape]
      simp
    · simp only [List.length_cons]
      omega
  | case4 text hne =>
    rw [quoted_value.eq_def] at h
    simp [hne] at h
    obtain ⟨rfl, rfl⟩ := h
    exact ⟨[S.quote], rfl, by simp [Ordinary], by simp⟩
  | case5 c text hne hquote ih =>
    rw [quoted_value.eq_def] at h
    simp only [hne, hquote, if_false, Option.map_eq_some_iff] at h
    obtain ⟨⟨w, r⟩, hread, heq⟩ := h
    obtain ⟨rfl, rfl⟩ := Prod.mk.inj heq
    obtain ⟨consumed, hsplit, hordinary, hlen⟩ := ih hread
    refine ⟨c :: consumed, congrArg (c :: ·) hsplit, ?_, ?_⟩
    · simp only [List.countP_cons, hordinary]
    · simp only [List.length_cons]
      omega

/-- What may stand behind a value: nothing, or a blank and then nothing or the next keyword. -/
def Ends (S : Signs α) (tail : List α) : Prop :=
  tail = [] ∨ ∃ sep rest, tail = sep :: rest ∧ S.blank sep = true ∧
    (rest = [] ∨ ∃ c more, rest = c :: more ∧ Ordinary S c = true)

theorem plain_value_solid {tail : List α} (hsolid : ∀ c ∈ v, S.blank c = false)
    (hescape : S.escape ∉ v) (htail : Ends S tail) :
    plain_value S (v ++ tail) = (v, tail.drop 1) := by
  induction v with
  | nil =>
    rcases htail with rfl | ⟨sep, rest, rfl, hsep, -⟩
    · rfl
    · exact plain_value_blank rest hsep
  | cons c v ih =>
    have ih := ih (fun x hx => hsolid x (List.mem_cons_of_mem c hx))
      fun hx => hescape (List.mem_cons_of_mem c hx)
    rw [List.cons_append, plain_value_other _ (hsolid c List.mem_cons_self)
      fun h => hescape (h ▸ List.mem_cons_self), ih]

theorem dropWhile_tail {tail : List α} (htail : Ends S tail) :
    tail.dropWhile S.blank = tail.drop 1 := by
  rcases htail with rfl | ⟨sep, rest, rfl, hsep, hrest⟩
  · rfl
  · rw [List.dropWhile_cons_of_pos hsep, List.drop_succ_cons, List.drop_zero]
    rcases hrest with rfl | ⟨c, more, rfl, hc⟩
    · rfl
    · have hsolid : ¬S.blank c = true := by
        intro hblank
        simp [Ordinary, hblank] at hc
      exact List.dropWhile_cons_of_neg hsolid

theorem value_readable {tail : List α} (hv : Readable S v) (htail : Ends S tail)
    (hplace : v ≠ [] ∨ tail.drop 1 = []) :
    value S (v ++ tail) = some (v, tail.drop 1) := by
  cases v with
  | nil =>
    have hnil : tail.drop 1 = [] := hplace.resolve_left fun h => h rfl
    rw [value, List.nil_append, dropWhile_tail htail, hnil]
  | cons c v =>
    have hsolid : ¬S.blank c = true := by
      rw [hv.solid c List.mem_cons_self]
      exact Bool.false_ne_true
    have hquote : c ≠ S.quote := fun h => hv.unquoted (congrArg some h)
    rw [value, List.cons_append, List.dropWhile_cons_of_neg hsolid]
    simp only [hquote, if_false]
    rw [← List.cons_append, plain_value_solid hv.solid hv.unescaped htail]

/-- What was read of a value and has no more ordinary items than it ends with it or with the
blank behind it. -/
theorem within_value (front : List α) {behind tail : List α} (hsplit : v ++ tail = front ++ behind)
    (htail : Ends S tail) (hcount : v.countP (Ordinary S) = front.countP (Ordinary S)) :
    front <+: v ++ tail.take 1 := by
  have hfront : front <+: v ++ tail := ⟨behind, hsplit.symm⟩
  have hshort : v ++ tail.take 1 <+: v ++ tail :=
    (List.prefix_append_right_inj v).mpr (List.take_prefix 1 tail)
  rcases List.prefix_or_prefix_of_prefix hfront hshort with h | h
  · exact h
  · obtain ⟨z, rfl⟩ := h
    rcases htail with rfl | ⟨sep, rest, rfl, hsep, hrest⟩
    · have hz := hfront.length_le
      simp only [List.length_append, List.take_nil, List.length_nil] at hz
      obtain rfl : z = [] := List.eq_nil_of_length_eq_zero (by omega)
      simp only [List.append_nil, List.prefix_refl]
    · cases z with
      | nil => simp only [List.append_nil, List.prefix_refl]
      | cons x z =>
        have hmore : v ++ ([sep] ++ rest) = v ++ ([sep] ++ (x :: z ++ behind)) := by
          simpa using hsplit
        have hrest' := List.append_cancel_left (List.append_cancel_left hmore)
        rcases hrest with rfl | ⟨c, more, rfl, hc⟩
        · cases hrest'
        · obtain rfl := (List.cons.inj hrest').1
          simp [List.countP_append, List.countP_cons, hc] at hcount

theorem plain_value_clean {skipped tail : List α} (htail : Ends S tail)
    (hsplit : v ++ tail = skipped ++ text) (hskipped : skipped.countP (Ordinary S) = 0)
    (h : plain_value S text = (v, rest)) : ∀ c ∈ v, S.blank c = false ∧ c ≠ S.escape := by
  obtain ⟨consumed, hconsumed, hordinary, hescape, hclean⟩ := @plain_value_spec _ _ S text
  rw [h] at hconsumed hordinary hescape hclean
  dsimp only at hconsumed hordinary hescape hclean
  have hfront := within_value (skipped ++ consumed)
    (by rw [hsplit, hconsumed, List.append_assoc]) htail
    (by rw [List.countP_append, hskipped, Nat.zero_add, hordinary])
  have hsep : (tail.take 1).count S.escape = 0 := by
    rcases htail with rfl | ⟨sep, more, rfl, hsep, -⟩
    · rfl
    · have hne : sep ≠ S.escape := fun h => by simp [h, S.escape_solid] at hsep
      simp [hne]
  have hcount := hfront.sublist.count_le S.escape
  rw [List.count_append, List.count_append, hsep] at hcount
  exact hclean (by omega)

/-- What follows an empty value is read for it. -/
theorem plain_value_filled {tail : List α} (htail : Ends S tail) (h : c :: text = tail.drop 1) :
    (plain_value S (c :: text)).1 ≠ [] := by
  rcases htail with rfl | ⟨sep, more, rfl, -, rfl | ⟨d, more, rfl, hd⟩⟩
  · cases h
  · cases h
  · obtain rfl : c = d := (List.cons.inj h).1
    have hsolid : S.blank c = false ∧ c ≠ S.escape := by
      simp only [Ordinary, Bool.and_eq_true, decide_eq_true_eq, Bool.not_eq_true'] at hd
      exact hd.1
    rw [plain_value_other text hsolid.1 hsolid.2]
    exact List.cons_ne_nil _ _

/-- A value that is read as it was written is readable, and if it is empty nothing follows. -/
theorem value_inv {tail : List α} (htail : Ends S tail)
    (h : value S (v ++ tail) = some (v, rest)) :
    Readable S v ∧ (v ≠ [] ∨ tail.drop 1 = []) := by
  obtain ⟨skipped, hskipped⟩ : ∃ skipped, skipped = (v ++ tail).takeWhile S.blank := ⟨_, rfl⟩
  obtain ⟨text, htext⟩ : ∃ text, text = (v ++ tail).dropWhile S.blank := ⟨_, rfl⟩
  have hsplit : v ++ tail = skipped ++ text := by
    rw [hskipped, htext, List.takeWhile_append_dropWhile]
  have hnone : skipped.countP (Ordinary S) = 0 := by
    rw [List.countP_eq_zero]
    intro c hc
    have hblank : S.blank c = true := List.mem_takeWhile_imp (hskipped ▸ hc)
    simp [Ordinary, hblank]
  have hempty : v = [] → text = tail.drop 1 := by
    rintro rfl
    rw [htext, List.nil_append, dropWhile_tail htail]
  rw [value, ← htext] at h
  cases text with
  | nil =>
    obtain ⟨rfl, -⟩ := Prod.mk.inj (Option.some.inj h)
    exact ⟨⟨fun c hc => (nomatch hc), List.not_mem_nil, fun h => (nomatch h)⟩,
      Or.inr (hempty rfl).symm⟩
  | cons c text =>
    dsimp only at h
    split at h
    · next hquote =>
      subst hquote
      obtain ⟨consumed, rfl, hordinary, hlen⟩ := quoted_value_spec h
      have hfront := (within_value (skipped ++ S.quote :: consumed) (by simpa using hsplit)
        htail (by simp [List.countP_append, hnone, hordinary, Ordinary])).length_le
      have hone := List.length_take_le 1 tail
      simp only [List.length_append, List.length_cons] at hfront
      omega
    · next hquote =>
      have hread := Option.some.inj h
      have hclean := plain_value_clean htail hsplit hnone hread
      refine ⟨⟨fun x hx => (hclean x hx).1, fun hx => (hclean _ hx).2 rfl, ?_⟩, Or.inl ?_⟩
      · intro hhead
        cases v with
        | nil => cases hhead
        | cons x v =>
          have hx : ¬S.blank x = true := by simp [(hclean x List.mem_cons_self).1]
          rw [List.cons_append, List.dropWhile_cons_of_neg hx] at htext
          exact hquote ((List.cons.inj htext).1.trans (Option.some.inj hhead))
      · intro hv
        apply plain_value_filled htail (hempty hv)
        rw [hread, hv]

end Value

/-! ## Texts that were written pair by pair -/

/-- Pairs as they are written without quotes, each with a blank behind it. -/
def written (sep : α) (items : List (List α × List α)) : List α :=
  items.flatMap fun item => item.1 ++ S.equals :: (item.2 ++ [sep])

structure IsKeyword (name : List α) : Prop where
  start : ∃ c more, name = c :: more ∧ Ordinary S c = true
  solid : ∀ c ∈ name, S.blank c = false ∧ c ≠ S.equals

section Pairs

variable {S} {name v tail : List α} {sep : α} {items : List (List α × List α)}

theorem keyword_written (hname : IsKeyword S name) (text : List α) :
    keyword S (name ++ S.equals :: text) = some (name, text) := by
  have htake : (name ++ S.equals :: text).takeWhile
      (fun c => decide (c ≠ S.equals ∧ S.blank c = false)) = name := by
    rw [List.takeWhile_append_of_pos fun c hc => by simp [hname.solid c hc]]
    simp
  have hdrop : (S.equals :: text).dropWhile S.blank = S.equals :: text :=
    List.dropWhile_cons_of_neg (by simp [S.equals_solid])
  rw [keyword, htake, List.drop_left, hdrop]
  simp only [if_true]

theorem dropWhile_keyword (hname : IsKeyword S name) (text : List α) :
    (name ++ text).dropWhile S.blank = name ++ text := by
  obtain ⟨c, more, rfl, -⟩ := hname.start
  exact List.dropWhile_cons_of_neg (by simp [(hname.solid c List.mem_cons_self).1])

theorem pairs_round (hname : IsKeyword S name) (n : ℕ) (text : List α) :
    pairs S (n + 1) (name ++ S.equals :: text) =
      (value S text).bind fun p =>
        (pairs S n p.2).map fun more => (name, p.1) :: more := by
  have hne : name ++ S.equals :: text ≠ [] := by simp
  rw [pairs, dropWhile_keyword hname, if_neg hne, keyword_written hname]
  change (value S text).bind _ = _
  congr 1
  funext p
  cases h : pairs S n p.2 <;> simp [h, bind, pure]

theorem pairs_cons_iff (hname : IsKeyword S name) (htail : Ends S tail) (n : ℕ) :
    pairs S (n + 1) (name ++ S.equals :: (v ++ tail)) = some ((name, v) :: items) ↔
      (Readable S v ∧ (v ≠ [] ∨ tail.drop 1 = [])) ∧ pairs S n (tail.drop 1) = some items := by
  rw [pairs_round hname, Option.bind_eq_some_iff]
  constructor
  · rintro ⟨⟨w, text⟩, hvalue, hmore⟩
    obtain ⟨more, hrest, heq⟩ := Option.map_eq_some_iff.mp hmore
    obtain ⟨hfirst, rfl⟩ := List.cons.inj heq
    obtain rfl := (Prod.mk.inj hfirst).2
    have hread := value_inv htail hvalue
    rw [value_readable hread.1 htail hread.2] at hvalue
    obtain ⟨-, rfl⟩ := Prod.mk.inj (Option.some.inj hvalue)
    exact ⟨hread, hrest⟩
  · rintro ⟨hread, hmore⟩
    refine ⟨_, value_readable hread.1 htail hread.2, ?_⟩
    dsimp only
    rw [hmore, Option.map_some]

/-- What is written pair by pair is read back exactly if all values are readable and none but the
last is empty. -/
theorem pairs_written_iff (hsep : S.blank sep = true) (hitems : ∀ item ∈ items, IsKeyword S item.1)
    (hname : IsKeyword S name) (htail : tail = [] ∨ tail = [sep]) {n : ℕ}
    (hn : items.length < n) :
    pairs S n (written S sep items ++ (name ++ S.equals :: (v ++ tail))) =
        some (items ++ [(name, v)]) ↔
      (∀ item ∈ items, Readable S item.2 ∧ item.2 ≠ []) ∧ Readable S v := by
  induction items generalizing n with
  | nil =>
    obtain ⟨n, rfl⟩ : ∃ m, n = m + 1 := ⟨n - 1, by simp at hn; omega⟩
    have hends : Ends S tail := htail.imp id fun h => ⟨sep, [], h, hsep, Or.inl rfl⟩
    have hlast : tail.drop 1 = [] := by rcases htail with rfl | rfl <;> rfl
    have hdone : pairs S n [] = some [] := by cases n <;> rfl
    change pairs S (n + 1) (name ++ S.equals :: (v ++ tail)) = some ((name, v) :: []) ↔ _
    rw [pairs_cons_iff hname hends, hlast]
    simp [hdone]
  | cons item items ih =>
    obtain ⟨n, rfl⟩ : ∃ m, n = m + 1 := ⟨n - 1, by simp at hn; omega⟩
    have ih := @ih (fun i hi => hitems i (List.mem_cons_of_mem item hi)) n (by simpa using hn)
    obtain ⟨text, htext⟩ : ∃ text, text =
        written S sep items ++ (name ++ S.equals :: (v ++ tail)) := ⟨_, rfl⟩
    -- what follows a value is its blank and then a keyword
    have hstart : ∃ c more, text = c :: more ∧ Ordinary S c = true := by
      cases items with
      | nil =>
        obtain ⟨c, more, rfl, hc⟩ := hname.start
        exact ⟨c, _, htext, hc⟩
      | cons next items =>
        obtain ⟨c, more, hnext, hc⟩ :=
          (hitems next (List.mem_cons_of_mem item List.mem_cons_self)).start
        rw [written, List.flatMap_cons, hnext] at htext
        exact ⟨c, _, htext, hc⟩
    have hends : Ends S (sep :: text) := Or.inr ⟨sep, text, rfl, hsep, Or.inr hstart⟩
    have hmore : text ≠ [] := by
      obtain ⟨c, more, rfl, -⟩ := hstart
      exact List.cons_ne_nil c more
    have hwhole : written S sep (item :: items) ++ (name ++ S.equals :: (v ++ tail)) =
        item.1 ++ S.equals :: (item.2 ++ sep :: text) := by
      rw [htext]
      simp [written]
    rw [hwhole, List.cons_append,
      pairs_cons_iff (hitems item List.mem_cons_self) hends, List.drop_succ_cons, List.drop_zero,
      htext, ih, ← htext]
    simp only [hmore, or_false, List.forall_mem_cons, and_assoc]

omit [DecidableEq α] in
theorem written_append (items more : List (List α × List α)) :
    written S sep (items ++ more) = written S sep items ++ written S sep more :=
  List.flatMap_append

omit [DecidableEq α] in
theorem length_le_written (items : List (List α × List α)) :
    items.length ≤ (written S sep items).length := by
  induction items with
  | nil => exact Nat.le_refl 0
  | cons item items ih =>
    rw [written, List.flatMap_cons, List.length_append, List.length_cons]
    have hone : 1 ≤ (item.1 ++ S.equals :: (item.2 ++ [sep])).length := by
      rw [List.length_append, List.length_cons]
      omega
    change _ ≤ _ + (written S sep items).length
    omega

theorem read_written_iff (hsep : S.blank sep = true) (hitems : ∀ item ∈ items, IsKeyword S item.1)
    (hname : IsKeyword S name) (htail : tail = [] ∨ tail = [sep]) :
    read S (written S sep items ++ (name ++ S.equals :: (v ++ tail))) =
        some (items ++ [(name, v)]) ↔
      (∀ item ∈ items, Readable S item.2 ∧ item.2 ≠ []) ∧ Readable S v := by
  apply pairs_written_iff hsep hitems hname htail
  have hle : items.length ≤ (written S sep items).length := length_le_written items
  rw [List.length_append, List.length_append, List.length_cons]
  omega

theorem plain_value_length_le (text : List α) : (plain_value S text).1.length ≤ text.length := by
  induction text using plain_value.induct S with
  | case1 => exact Nat.le_refl 0
  | case2 c text hblank =>
    rw [plain_value_blank text hblank]
    exact Nat.zero_le _
  | case3 =>
    rw [plain_value_end]
    exact Nat.zero_le _
  | case4 d text _ ih =>
    rw [plain_value_escape]
    simp only [List.length_cons]
    omega
  | case5 c text hblank hne ih =>
    rw [plain_value_other text (by simpa using hblank) hne]
    simp only [List.length_cons]
    omega

theorem value_length_le {text rest : List α} (h : value S text = some (v, rest)) :
    v.length ≤ text.length := by
  have hskip := (@List.dropWhile_suffix _ text S.blank).length_le
  rw [value] at h
  split at h
  · obtain ⟨rfl, -⟩ := Prod.mk.inj (Option.some.inj h)
    exact Nat.zero_le _
  · next c more htext =>
    rw [htext] at hskip
    split at h
    · obtain ⟨consumed, rfl, -, hlen⟩ := quoted_value_spec h
      rw [List.length_cons, List.length_append] at hskip
      omega
    · have hlen := @plain_value_length_le _ _ S (c :: more)
      rw [Option.some.inj h] at hlen
      exact Nat.le_trans hlen hskip

theorem read_cut (hname : IsKeyword S name) {cut : List α} (h : cut.length < v.length) :
    read S (name ++ S.equals :: cut) ≠ some [(name, v)] := by
  intro hread
  obtain ⟨n, hn⟩ : ∃ n, (name ++ S.equals :: cut).length = n + 1 :=
    ⟨name.length + cut.length, by rw [List.length_append, List.length_cons]; omega⟩
  rw [read, hn, pairs_round hname] at hread
  obtain ⟨⟨w, text⟩, hvalue, hmore⟩ := Option.bind_eq_some_iff.mp hread
  obtain ⟨more, -, heq⟩ := Option.map_eq_some_iff.mp hmore
  obtain rfl : w = v := (Prod.mk.inj (List.cons.inj heq).1).2
  have hle := value_length_le hvalue
  omega

end Pairs

end KeywordText
