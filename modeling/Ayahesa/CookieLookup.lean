import Ayahesa.CMemory
import Ayahesa.DelimitedFields
import Mathlib.Algebra.Group.Nat.Even

/-! # Cookies of a request

The header is cut at blanks, semicolons and equals signs alike, and its tokens are taken for a
name and a value in turns. -/
namespace CookieLookup

open CMemory DelimitedFields

def delimiters : Bytes := bytes " ;="

def cookie_loop (name : Bytes) (iskey isfound : Bool) (s : Bytes) : Option Bytes :=
  match _h : strtok s delimiters with
  | (none, _) => none
  | (some pch, next) =>
    if iskey then cookie_loop name false (isfound || pch = name) next
    else if isfound then some pch
    else cookie_loop name true isfound next
termination_by s.length
decreasing_by
  all_goals exact strtok_shorter _h

/-- On a request whose header was not cut by an earlier call. -/
def http_get_cookie (cookie : Option Bytes) (name : Bytes) : Option Bytes :=
  cookie.bind fun cookiejar => cookie_loop name true false cookiejar

/-! ## Tokens two by two -/

def paired : List Bytes → List (Bytes × Bytes)
  | [] => []
  | [_] => []
  | name :: value :: ws => (name, value) :: paired ws

variable {name s pch : Bytes} {ws : List Bytes}

theorem cookie_loop_nil (h : words (delimiters.contains ·) s = []) (iskey isfound : Bool) :
    cookie_loop name iskey isfound s = none := by
  have htok := (strtok_words s delimiters).1
  rw [h] at htok
  rw [cookie_loop]
  split
  · rfl
  · next heq =>
    rw [heq] at htok
    cases htok

theorem cookie_loop_cons (h : words (delimiters.contains ·) s = pch :: ws) :
    ∃ next, words (delimiters.contains ·) next = ws ∧
      ∀ iskey isfound, cookie_loop name iskey isfound s =
        if iskey then cookie_loop name false (isfound || pch = name) next
        else if isfound then some pch
        else cookie_loop name true isfound next := by
  obtain ⟨htok, hnext⟩ := strtok_words s delimiters
  rw [h] at htok hnext
  refine ⟨(strtok s delimiters).2, hnext, fun iskey isfound => ?_⟩
  rw [cookie_loop]
  split
  · next heq =>
    rw [heq] at htok
    cases htok
  · next heq =>
    rw [heq] at htok
    obtain rfl := Option.some.inj htok
    rw [heq]

/-- The answer stands behind the first token in the place of a name that is the wanted one. -/
theorem cookie_loop_words (name s : Bytes) :
    cookie_loop name true false s = (paired (words (delimiters.contains ·) s)).lookup name := by
  generalize hws : words (delimiters.contains ·) s = ws
  induction ws using paired.induct generalizing s with
  | case1 => exact cookie_loop_nil hws true false
  | case2 key =>
    obtain ⟨next, hnext, hkey⟩ := cookie_loop_cons hws
    rw [hkey, if_pos rfl, cookie_loop_nil hnext]
    rfl
  | case3 key value ws ih =>
    obtain ⟨next, hnext, hkey⟩ := cookie_loop_cons hws
    obtain ⟨after, hafter, hvalue⟩ := cookie_loop_cons hnext
    rw [hkey, if_pos rfl, hvalue, if_neg Bool.false_ne_true, paired, List.lookup_cons]
    by_cases hname : key = name
    · subst hname
      simp
    · have hbeq : (name == key) = false := beq_eq_false_iff_ne.mpr fun h => hname h.symm
      rw [hbeq, decide_eq_false hname]
      exact ih after hafter

/-- What the places of the tokens say: the answer stands behind the first even place of a name. -/
def Stands (ws : List Bytes) (name : Bytes) : Option Bytes → Prop
  | some v => ∃ q, ws[2 * q]? = some name ∧ ws[2 * q + 1]? = some v ∧
      ∀ r < q, ws[2 * r]? ≠ some name
  | none => ∀ q, ws[2 * q]? = some name → ws[2 * q + 1]? = none

theorem stands_cons_iff {key value : Bytes} (hne : key ≠ name) (answer : Option Bytes) :
    Stands (key :: value :: ws) name answer ↔ Stands ws name answer := by
  have hshift : ∀ q, (key :: value :: ws)[2 * (q + 1)]? = ws[2 * q]? ∧
      (key :: value :: ws)[2 * (q + 1) + 1]? = ws[2 * q + 1]? := fun q => ⟨rfl, rfl⟩
  have hzero : (key :: value :: ws)[2 * 0]? ≠ some name := fun h => hne (Option.some.inj h)
  cases answer with
  | none =>
    constructor
    · intro h q hq
      exact h (q + 1) hq
    · intro h q hq
      cases q with
      | zero => exact absurd hq hzero
      | succ q => exact h q hq
  | some v =>
    constructor
    · rintro ⟨q, hq, hv, hfirst⟩
      cases q with
      | zero => exact absurd hq hzero
      | succ q => exact ⟨q, hq, hv, fun r hr => hfirst (r + 1) (by omega)⟩
    · rintro ⟨q, hq, hv, hfirst⟩
      refine ⟨q + 1, hq, hv, fun r hr => ?_⟩
      cases r with
      | zero => exact hzero
      | succ r => exact hfirst r (by omega)

theorem lookup_paired_iff (ws : List Bytes) (name : Bytes) (answer : Option Bytes) :
    (paired ws).lookup name = answer ↔ Stands ws name answer := by
  induction ws using paired.induct with
  | case1 =>
    cases answer with
    | none => simp [paired, Stands]
    | some v => simp [paired, Stands]
  | case2 key =>
    cases answer with
    | none => simp [paired, Stands]
    | some v => simp [paired, Stands]
  | case3 key value ws ih =>
    rw [paired, List.lookup_cons]
    by_cases hname : key = name
    · subst hname
      rw [beq_self_eq_true]
      cases answer with
      | none =>
        refine iff_of_false (fun h => nomatch h) fun h => ?_
        cases h 0 rfl
      | some v =>
        constructor
        · rintro h
          exact ⟨0, rfl, h, fun r hr => absurd hr (Nat.not_lt_zero r)⟩
        · rintro ⟨q, -, hv, hfirst⟩
          cases q with
          | zero => exact hv
          | succ q => exact absurd rfl (hfirst 0 (Nat.succ_pos q))
    · have hbeq : (name == key) = false := beq_eq_false_iff_ne.mpr fun h => hname h.symm
      rw [hbeq, stands_cons_iff hname]
      exact ih

/-- No token in the place of a name is the wanted one. -/
def Unnamed (name : Bytes) (ws : List Bytes) : Prop := ∀ q, ws[2 * q]? ≠ some name

theorem unnamed_cons {key value : Bytes} (h : Unnamed name (key :: value :: ws)) :
    key ≠ name ∧ Unnamed name ws :=
  ⟨fun hname => h 0 (congrArg some hname), fun q => h (q + 1)⟩

theorem lookup_cons_ne {key value : Bytes} (hne : key ≠ name) :
    (paired (key :: value :: ws)).lookup name = (paired ws).lookup name := by
  have hbeq : (name == key) = false := beq_eq_false_iff_ne.mpr fun h => hne h.symm
  rw [paired, List.lookup_cons, hbeq]

theorem lookup_unnamed (h : Unnamed name ws) : (paired ws).lookup name = none := by
  refine (lookup_paired_iff ws name none).mpr ?_
  intro q hq
  exact absurd hq (h q)

theorem lookup_even_front {front : List Bytes} (heven : Even front.length)
    (h : Unnamed name front) (ws : List Bytes) :
    (paired (front ++ ws)).lookup name = (paired ws).lookup name := by
  induction front using paired.induct with
  | case1 => rfl
  | case2 key => exact absurd heven Nat.not_even_one
  | case3 key value front ih =>
    obtain ⟨hne, hrest⟩ := unnamed_cons h
    rw [List.length_cons, List.length_cons, Nat.even_add_one, Nat.even_add_one, not_not] at heven
    exact (lookup_cons_ne hne).trans (ih heven hrest)

theorem lookup_odd_front {front : List Bytes} (hodd : ¬Even front.length)
    (h : Unnamed name front) (ws : List Bytes) :
    (paired (front ++ name :: ws)).lookup name = (paired ws).lookup name := by
  induction front using paired.induct with
  | case1 => exact absurd Even.zero hodd
  | case2 key => exact lookup_cons_ne fun hname => h 0 (congrArg some hname)
  | case3 key value front ih =>
    obtain ⟨hne, hrest⟩ := unnamed_cons h
    rw [List.length_cons, List.length_cons, Nat.even_add_one, Nat.even_add_one, not_not] at hodd
    exact (lookup_cons_ne hne).trans (ih hodd hrest)

/-! ## Headers that are lists of pairs -/

def cookie_pair (pair : Bytes × Bytes) : Bytes := pair.1 ++ 61 :: pair.2

def cookie_header (pairs : List (Bytes × Bytes)) : Bytes :=
  (bytes "; ").intercalate (pairs.map cookie_pair)

/-- A value may be empty and hold equals signs. -/
structure WellFormed (pair : Bytes × Bytes) : Prop where
  named : pair.1 ≠ []
  name_clean : ∀ c ∈ pair.1, delimiters.contains c = false
  value_clean : ∀ c ∈ pair.2, c ≠ 32 ∧ c ≠ 59

instance : DecidablePred WellFormed := fun pair =>
  decidable_of_iff (pair.1 ≠ [] ∧ (pair.1.all fun c => !delimiters.contains c) = true ∧
      (pair.2.all fun c => c ≠ 32 ∧ c ≠ 59) = true) <| by
    simp only [List.all_eq_true, Bool.not_eq_true', decide_eq_true_eq]
    exact ⟨fun h => ⟨h.1, h.2.1, h.2.2⟩, fun h => ⟨h.named, h.name_clean, h.value_clean⟩⟩

/-- The tokens of the pairs: of a value, what stands between its equals signs. -/
def spelled (pairs : List (Bytes × Bytes)) : List Bytes :=
  pairs.flatMap fun pair => pair.1 :: fields 61 pair.2

theorem delimiters_eq : delimiters = [32, 59, 61] := by decide

theorem words_pair {pair : Bytes × Bytes} (h : WellFormed pair) :
    words (delimiters.contains ·) (cookie_pair pair) = pair.1 :: fields 61 pair.2 := by
  have hvalue : words (delimiters.contains ·) pair.2 = fields 61 pair.2 := by
    rw [fields_eq_words]
    refine words_congr fun c hc => ?_
    obtain ⟨hblank, hsemicolon⟩ := h.value_clean c hc
    rw [delimiters_eq]
    simp [hblank, hsemicolon, Bool.beq_eq_decide_eq]
  rw [cookie_pair, words_append_delim (by decide), words_of_clean h.name_clean h.named, hvalue]
  rfl

theorem words_header {pairs : List (Bytes × Bytes)} (h : ∀ pair ∈ pairs, WellFormed pair) :
    words (delimiters.contains ·) (cookie_header pairs) = spelled pairs := by
  induction pairs with
  | nil => exact words_nil
  | cons pair pairs ih =>
    have hpair := words_pair (h pair List.mem_cons_self)
    have hrest := ih fun p hp => h p (List.mem_cons_of_mem pair hp)
    have hsep : bytes "; " = [59, 32] := by decide
    cases pairs with
    | nil =>
      have hlone : cookie_header [pair] = cookie_pair pair := by
        simp [cookie_header, List.intercalate]
      rw [hlone, hpair]
      exact (List.append_nil _).symm
    | cons next pairs =>
      have hsplit : cookie_header (pair :: next :: pairs) =
          cookie_pair pair ++ 59 :: (32 :: cookie_header (next :: pairs)) := by
        simp [cookie_header, List.intercalate, hsep]
      rw [hsplit, words_append_delim (by decide), words_cons_delim (by decide), hpair, hrest]
      rfl

/-- The first pair of a name. -/
theorem lookup_eq_head (pairs : List (Bytes × Bytes)) (name : Bytes) :
    pairs.lookup name = ((pairs.dropWhile (·.1 ≠ name)).head?).map Prod.snd := by
  induction pairs with
  | nil => rfl
  | cons pair pairs ih =>
    rw [List.lookup_cons]
    by_cases hname : pair.1 = name
    · rw [List.dropWhile_cons_of_neg (by simpa using hname), hname, beq_self_eq_true]
      rfl
    · have hbeq : (name == pair.1) = false := beq_eq_false_iff_ne.mpr fun h => hname h.symm
      rw [List.dropWhile_cons_of_pos (by simpa using hname), hbeq]
      exact ih

/-- A value is found behind its name if and only if it is not empty and without equals sign. -/
theorem lookup_here {v : Bytes} {more : List (Bytes × Bytes)}
    (hmore : ∀ pair ∈ more, WellFormed pair) :
    (paired (name :: fields 61 v ++ spelled more)).lookup name = some v ↔ v ≠ [] ∧ 61 ∉ v := by
  rcases hfields : fields 61 v with _ | ⟨w, ws⟩
  · refine iff_of_false (fun h => ?_) fun ⟨hne, hclean⟩ => ?_
    · cases more with
      | nil => cases h
      | cons pair more =>
        -- the name of the next pair is taken for the value
        have hhead : (paired (name :: [] ++ spelled (pair :: more))).lookup name =
            some pair.1 := by
          simp [spelled, paired]
        rw [hhead] at h
        obtain rfl := Option.some.inj h
        have hpair := hmore pair List.mem_cons_self
        have hclean : 61 ∉ pair.1 := fun h61 => by
          have := hpair.name_clean 61 h61
          revert this
          decide
        rw [fields_of_not_mem hclean hpair.named] at hfields
        cases hfields
    · rw [fields_of_not_mem hclean hne] at hfields
      cases hfields
  · have hfound : (paired (name :: w :: ws ++ spelled more)).lookup name = some w := by
      simp [paired]
    rw [hfound]
    constructor
    · intro h
      obtain rfl := Option.some.inj h
      obtain ⟨hne, hclean, -⟩ := mem_fields (hfields ▸ List.mem_cons_self : w ∈ fields 61 w)
      exact ⟨hne, hclean⟩
    · rintro ⟨hne, hclean⟩
      rw [fields_of_not_mem hclean hne] at hfields
      rw [(List.cons.inj hfields).1]

theorem http_get_cookie_header {pairs : List (Bytes × Bytes)}
    (h : ∀ pair ∈ pairs, WellFormed pair) (name : Bytes) :
    http_get_cookie (some (cookie_header pairs)) name = (paired (spelled pairs)).lookup name := by
  rw [← words_header h]
  exact cookie_loop_words name (cookie_header pairs)

def ahead (pairs : List (Bytes × Bytes)) (name : Bytes) : List Bytes :=
  spelled (pairs.takeWhile (·.1 ≠ name))

/-- The parts of the values in front neither move the first pair of the name nor stand in the place
of a name as that name. -/
structure InPlace (pairs : List (Bytes × Bytes)) (name : Bytes) : Prop where
  even : pairs.lookup name ≠ none → Even (ahead pairs name).length
  unnamed : Unnamed name (ahead pairs name)

theorem inPlace_of_single {pairs : List (Bytes × Bytes)}
    (h : ∀ pair ∈ pairs.takeWhile (·.1 ≠ name), (fields 61 pair.2).length = 1) :
    InPlace pairs name := by
  have hnames : ∀ pair ∈ pairs.takeWhile (·.1 ≠ name), pair.1 ≠ name := fun pair hpair => by
    simpa using List.mem_takeWhile_imp hpair
  have hplaces : ∀ front : List (Bytes × Bytes), (∀ pair ∈ front, pair.1 ≠ name) →
      (∀ pair ∈ front, (fields 61 pair.2).length = 1) →
      Even (spelled front).length ∧ Unnamed name (spelled front) := by
    intro front hnames hone
    induction front with
    | nil => exact ⟨Even.zero, fun q hq => by cases hq⟩
    | cons pair front ih =>
      obtain ⟨w, hw⟩ := List.length_eq_one_iff.mp (hone pair List.mem_cons_self)
      obtain ⟨heven, hunnamed⟩ := ih (fun p hp => hnames p (List.mem_cons_of_mem pair hp))
        fun p hp => hone p (List.mem_cons_of_mem pair hp)
      have hspelled : spelled (pair :: front) = pair.1 :: w :: spelled front := by
        simp [spelled, hw]
      rw [hspelled]
      refine ⟨by simpa [Nat.even_add_one] using heven, fun q => ?_⟩
      cases q with
      | zero => exact fun hq => hnames pair List.mem_cons_self (Option.some.inj hq)
      | succ q => exact hunnamed q
  obtain ⟨heven, hunnamed⟩ := hplaces _ hnames h
  exact ⟨fun _ => heven, hunnamed⟩

theorem spelled_cases (pairs : List (Bytes × Bytes)) (name : Bytes) :
    (pairs.lookup name = none ∧ spelled pairs = ahead pairs name) ∨
    ∃ v more, pairs.lookup name = some v ∧ more ⊆ pairs ∧
      spelled pairs = ahead pairs name ++ name :: (fields 61 v ++ spelled more) := by
  have hsplit := List.takeWhile_append_dropWhile (p := fun pair : Bytes × Bytes => pair.1 ≠ name)
    (l := pairs)
  have hspelled : spelled pairs = ahead pairs name ++ spelled (pairs.dropWhile (·.1 ≠ name)) := by
    rw [ahead, spelled, spelled, spelled, ← List.flatMap_append, hsplit]
  rw [lookup_eq_head, hspelled]
  rcases hrest : pairs.dropWhile (·.1 ≠ name) with _ | ⟨⟨key, v⟩, more⟩
  · rw [hrest]
    exact Or.inl ⟨rfl, List.append_nil _⟩
  · have hkey : key = name := by
      have hhead := List.head?_dropWhile_not (fun pair : Bytes × Bytes => pair.1 ≠ name) pairs
      rw [hrest] at hhead
      simpa using hhead
    subst hkey
    rw [hrest]
    refine Or.inr ⟨v, more, rfl, fun pair hpair => ?_, rfl⟩
    exact (List.dropWhile_suffix _).subset (hrest ▸ List.mem_cons_of_mem _ hpair)

/-- A cookie whose name is in its place is found if and only if its value is whole. One whose name
is taken for a value is not found where the name does not come up again. -/
theorem http_get_cookie_iff (pairs : List (Bytes × Bytes)) (name : Bytes)
    (h : ∀ pair ∈ pairs, WellFormed pair) :
    (InPlace pairs name →
      (http_get_cookie (some (cookie_header pairs)) name = pairs.lookup name ↔
        ∀ v, pairs.lookup name = some v → v ≠ [] ∧ 61 ∉ v)) ∧
    ∀ v behind, pairs.lookup name = some v → ¬Even (ahead pairs name).length →
      Unnamed name (ahead pairs name) → spelled pairs = ahead pairs name ++ name :: behind →
      Unnamed name behind → http_get_cookie (some (cookie_header pairs)) name = none := by
  rw [http_get_cookie_header h]
  constructor
  · rintro ⟨heven, hunnamed⟩
    rcases spelled_cases pairs name with ⟨hnone, hspelled⟩ | ⟨v, more, hsome, hsub, hspelled⟩
    · rw [hspelled, lookup_unnamed hunnamed, hnone]
      exact iff_of_true rfl fun v hv => (nomatch hv)
    · rw [hspelled, hsome, lookup_even_front (heven (by rw [hsome]; exact Option.some_ne_none v))
        hunnamed, ← List.cons_append, lookup_here fun pair hpair => h pair (hsub hpair)]
      refine ⟨?_, fun hall => hall v rfl⟩
      intro hwhole value hvalue
      obtain rfl := Option.some.inj hvalue
      exact hwhole
  · intro v behind _ hodd hunnamed hspelled hbehind
    rw [hspelled, lookup_odd_front hodd hunnamed, lookup_unnamed hbehind]

theorem http_get_cookie_iff_second :
    http_get_cookie (some (cookie_header [(bytes "lang", bytes "en"), (bytes "track", bytes "1")]))
      (bytes "track") = some (bytes "1") :=
  ((http_get_cookie_iff [(bytes "lang", bytes "en"), (bytes "track", bytes "1")] (bytes "track")
    (by decide)).1 (inPlace_of_single (by decide))).mpr (by
      intro v hv
      obtain rfl : bytes "1" = v := Option.some.inj hv
      decide)

/-- Behind a cookie without a value the next name is taken for it. -/
theorem cookie_behind_empty :
    ¬∀ (pairs : List (Bytes × Bytes)) (name : Bytes), (∀ pair ∈ pairs, WellFormed pair) →
      http_get_cookie (some (cookie_header pairs)) name = pairs.lookup name := by
  intro h
  have hpairs : ∀ pair ∈ [(bytes "lang", []), (bytes "track", bytes "1")], WellFormed pair := by
    decide
  have hfound := h _ (bytes "track") hpairs
  rw [http_get_cookie_header hpairs] at hfound
  revert hfound
  decide

end CookieLookup
