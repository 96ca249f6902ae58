import Ayahesa.IniParser

/-! # What a line of an INI file is

The text of a line decides its kind together with two facts from the lines before: whether
there is a previous name, and whether the line is the first one. -/
namespace IniLines

open CMemory CompatStrings CompatCopy AppConfig IniParser

/-- The number of characters in front of a wanted one or of an inline comment. -/
def end_of (chars : Option Bytes) : Bool → Bytes → ℕ
  | _, [] => 0
  | was_space, c :: rest =>
    if chars.any (c ∈ ·) ∨ (was_space ∧ c = 59) then 0 else end_of chars (isspace c) rest + 1

inductive LineKind where
  | skip
  | more (value : Bytes)
  | header (sect : Bytes)
  | pair (name value : Bytes)
  | malformed
  deriving DecidableEq, Repr

def value_of (text : Bytes) : Bytes :=
  stripped ((text.take (end_of none false text)).dropWhile isspace)

def line_kind (indented : Bool) (prev_name : Bytes) : Bytes → LineKind
  | [] => .skip
  | c :: text =>
    if c = 59 ∨ c = 35 then .skip
    else if prev_name ≠ [] ∧ indented then .more (c :: text)
    else if c = 91 then
      let n := end_of (some (bytes "]")) false text
      if text[n]? = some 93 then .header (text.take n) else .malformed
    else
      let n := end_of (some (bytes "=:")) false (c :: text)
      if (c :: text)[n]? = some 61 ∨ (c :: text)[n]? = some 58 then
        .pair (stripped ((c :: text).take n)) (value_of ((c :: text).drop (n + 1)))
      else .malformed

/-- The number of bytes of the mark on a first line. -/
def marked (lineno : ℕ) (text : Bytes) : ℕ :=
  if lineno = 1 ∧ [0xEF, 0xBB, 0xBF] <+: text then 3 else 0

def kind_of (lineno : ℕ) (prev_name text : Bytes) : LineKind :=
  let start := marked lineno text
  line_kind (0 < start + leading (text.drop start)) prev_name (trimmed (text.drop start))

variable {σ : Type} (handler : Loader σ)

/-- What the parser does with a line of a kind. -/
def act (st : IniState) (user : σ) (lineno : ℕ) : LineKind → Proc (IniState × σ × ℕ)
  | .skip => .ok (st, user, 0)
  | .more value =>
    (handle handler user st.sect st.prev_name value lineno).map fun (user, error) =>
      (st, user, error)
  | .header sect => .ok (⟨sect.take (MAX_SECTION - 1), []⟩, user, 0)
  | .pair name value =>
    (handle handler user st.sect name value lineno).map fun (user, error) =>
      ({ st with prev_name := name.take (MAX_NAME - 1) }, user, error)
  | .malformed => .ok (st, user, lineno)

theorem end_of_le (chars : Option Bytes) (was_space : Bool) (text : Bytes) :
    end_of chars was_space text ≤ text.length := by
  induction text generalizing was_space with
  | nil => exact Nat.le_refl 0
  | cons c text ih =>
    rw [end_of]
    split
    · exact Nat.zero_le _
    · exact Nat.succ_le_succ (ih (isspace c))

theorem chars_loop_eq (chars : Option Bytes) (was_space : Bool) {text : Bytes} (right : Bytes)
    (h : 0 ∉ text) :
    chars_loop chars was_space (text ++ 0 :: right) = .ok (end_of chars was_space text) := by
  induction text generalizing was_space with
  | nil => simp [chars_loop, end_of]
  | cons c text ih =>
    have hc : c ≠ 0 := fun h0 => h (h0 ▸ List.mem_cons_self)
    have ih := ih (isspace c) fun h0 => h (List.mem_cons_of_mem c h0)
    rw [List.cons_append, chars_loop, end_of]
    by_cases hstop : chars.any (c ∈ ·) ∨ (was_space ∧ c = 59)
    · rw [if_pos hstop, if_neg (by tauto)]
    · rw [if_neg hstop, if_pos (by tauto), ih]
      rfl

theorem find_at (chars : Option Bytes) (left : Bytes) {text : Bytes} (right : Bytes)
    (h : 0 ∉ text) :
    find_chars_or_comment (left ++ (text ++ 0 :: right)) left.length chars =
      .ok (left.length + end_of chars false text) := by
  rw [find_chars_or_comment, List.drop_left, chars_loop_eq chars false right h]
  rfl

theorem strncpy0_field_eq {src : Bytes} (h : 0 ∉ src) {size : ℕ} (hsize : 0 < size) :
    strncpy0_field src size = .ok (src.take (size - 1)) := by
  obtain ⟨fill, hcopy⟩ := aya_strncpy0_eq (aya_malloc size) src hsize (by simp [aya_malloc])
  have hclean : 0 ∉ src.take (size - 1) := fun h0 => h (List.mem_of_mem_take h0)
  simp only [strncpy0_field, hcopy, bind, Except.bind, List.append_assoc]
  exact contents_terminated hclean _

theorem cstr_wiped (left : Bytes) {text : Bytes} (right : Bytes) (h : 0 ∉ text) :
    cstr (left ++ (wiped text ++ 0 :: right)) left.length = .ok (stripped text) := by
  have hclean : 0 ∉ stripped text := fun h0 => h (stripped_subset h0)
  have hmore : ∃ more, wiped text ++ 0 :: right = stripped text ++ 0 :: more := by
    rw [wiped, List.append_assoc]
    cases text.length - (stripped text).length with
    | zero => exact ⟨right, rfl⟩
    | succ k => exact ⟨List.replicate k 0 ++ 0 :: right, rfl⟩
  obtain ⟨more, hmore⟩ := hmore
  rw [hmore, cstr_at more hclean]

theorem lskip_text (left : Bytes) {text : Bytes} (right : Bytes) (h : 0 ∉ text) :
    lskip (left ++ (text ++ 0 :: right)) left.length =
      .ok (left.length + (text.takeWhile isspace).length) := by
  have hhit : ∃ z more, (z = 0 ∨ isspace z = false) ∧
      text.dropWhile isspace ++ 0 :: right = z :: more := by
    cases hd : text.dropWhile isspace with
    | nil => exact ⟨0, right, Or.inl rfl, rfl⟩
    | cons z more =>
      have hhead := List.head?_dropWhile_not isspace text
      rw [hd] at hhead
      exact ⟨z, more ++ 0 :: right, Or.inr (by simpa using hhead), rfl⟩
  obtain ⟨z, more, hz, hsplit⟩ := hhit
  have htext : text ++ 0 :: right = text.takeWhile isspace ++ z :: more := by
    rw [← hsplit, ← List.append_assoc, List.takeWhile_append_dropWhile]
  unfold lskip
  rw [List.drop_left, htext, scan_hit more]
  · rfl
  · intro x hx
    have hsp : isspace x = true := List.mem_takeWhile_imp hx
    have hne : x ≠ 0 := fun h0 => h (h0 ▸ (List.takeWhile_prefix isspace).subset hx)
    simp [hsp, hne]
  · rcases hz with rfl | hz
    · rfl
    · simp [hz]

/-- The cut at an inline comment; nothing changes where the text simply ends. -/
theorem cut_comment (left : Bytes) {text : Bytes} (right : Bytes) (h : 0 ∉ text) {n : ℕ}
    (hn : n ≤ text.length) : ∃ rest,
      (if (left ++ (text ++ 0 :: right))[left.length + n]? ≠ some 0 then
        store (left ++ (text ++ 0 :: right)) (left.length + n) 0
      else .ok (left ++ (text ++ 0 :: right))) = .ok (left ++ (text.take n ++ 0 :: rest)) := by
  by_cases hlast : n = text.length
  · refine ⟨right, ?_⟩
    rw [if_neg (by simp [hlast]), hlast, List.take_length]
  · have hlt : n < text.length := by omega
    have hsplit : left ++ (text ++ 0 :: right) =
        (left ++ text.take n) ++ text[n] :: (text.drop (n + 1) ++ 0 :: right) := by
      rw [List.append_assoc, ← List.cons_append, ← List.append_assoc (text.take n),
        ← List.drop_eq_getElem_cons hlt, List.take_append_drop]
    have hat : (left ++ text.take n).length = left.length + n := by
      rw [List.length_append, List.length_take_of_le hn]
    have hne : text[n] ≠ 0 := fun h0 => h (h0 ▸ List.getElem_mem hlt)
    have hstore := store_at (left ++ text.take n) text[n] (text.drop (n + 1) ++ 0 :: right) 0
    refine ⟨text.drop (n + 1) ++ 0 :: right, ?_⟩
    have hget : (left ++ (text ++ 0 :: right))[left.length + n]? = some text[n] := by
      rw [List.getElem?_append_right (by omega), Nat.add_sub_cancel_left,
        List.getElem?_append_left hlt, List.getElem?_eq_getElem hlt]
    rw [← hsplit, hat] at hstore
    rw [hget, if_pos (by simpa using hne), hstore, List.append_assoc]

theorem ini_pair_eq (st : IniState) (user : σ) (lineno : ℕ) (left : Bytes) {name text : Bytes}
    (sep : UInt8) (right : Bytes) (hname : 0 ∉ name) (htext : 0 ∉ text) :
    ini_pair handler st user lineno (left ++ (name ++ sep :: (text ++ 0 :: right))) left.length
        (left.length + name.length) =
      act handler st user lineno (.pair (stripped name) (value_of text)) := by
  have hstore : store (left ++ (name ++ sep :: (text ++ 0 :: right)))
      (left.length + name.length) 0 = .ok (left ++ (name ++ 0 :: (text ++ 0 :: right))) := by
    have h := store_at (left ++ name) sep (text ++ 0 :: right) 0
    simpa using h
  have hrstrip := @rstrip_at left name (text ++ 0 :: right) hname
  -- the value starts behind the NUL that took the place of the separator
  obtain ⟨L, hL⟩ : ∃ L, L = left ++ (wiped name ++ [0]) := ⟨_, rfl⟩
  have hsplit : ∀ more, left ++ (wiped name ++ 0 :: more) = L ++ more := by simp [hL]
  have hlen : left.length + name.length + 1 = L.length := by simp [hL, Nat.add_assoc]
  have hfind := find_at none L right htext
  obtain ⟨rest, hcut⟩ := cut_comment L right htext (end_of_le none false text)
  obtain ⟨x, hx⟩ : ∃ x, x = text.take (end_of none false text) := ⟨_, rfl⟩
  have hx0 : 0 ∉ x := fun h0 => htext (List.mem_of_mem_take (hx ▸ h0))
  have hskip := lskip_text L rest hx0
  have hblanks : L ++ (x ++ 0 :: rest) =
      (L ++ x.takeWhile isspace) ++ (x.dropWhile isspace ++ 0 :: rest) := by
    rw [List.append_assoc, ← List.append_assoc (x.takeWhile isspace),
      List.takeWhile_append_dropWhile]
  have hdrop0 : 0 ∉ x.dropWhile isspace := fun h0 => hx0 ((List.dropWhile_suffix isspace).subset h0)
  have hvalue := @rstrip_at (L ++ x.takeWhile isspace) (x.dropWhile isspace) rest hdrop0
  have hread_value := cstr_wiped (L ++ x.takeWhile isspace) rest hdrop0
  have hread_name := cstr_wiped left
    (x.takeWhile isspace ++ (wiped (x.dropWhile isspace) ++ 0 :: rest)) hname
  have hname0 : 0 ∉ stripped name := fun h0 => hname (stripped_subset h0)
  have hfield := @strncpy0_field_eq (stripped name) hname0 MAX_NAME (by decide)
  rw [hsplit] at hread_name
  rw [← hblanks, List.length_append, List.append_assoc] at hvalue
  rw [List.length_append, List.append_assoc] at hread_value
  rw [hsplit] at hrstrip
  rw [← hx] at hcut
  simp only [ini_pair, bind, Except.bind, hstore, hrstrip, hlen, hfind, hcut, hskip, hvalue,
    hread_name, hread_value, hfield, lift_ok, act, value_of, ← hx]
  cases handle handler user st.sect (stripped name) (stripped (x.dropWhile isspace)) lineno <;> rfl

theorem getElem?_end (left : Bytes) {text : Bytes} (right : Bytes) {n : ℕ} (hn : n ≤ text.length)
    {c : UInt8} (hc : c ≠ 0) :
    (left ++ (text ++ 0 :: right))[left.length + n]? = some c ↔ text[n]? = some c := by
  rw [List.getElem?_append_right (Nat.le_add_right _ _), Nat.add_sub_cancel_left]
  by_cases hlast : n = text.length
  · simp [hlast, hc.symm]
  · rw [List.getElem?_append_left (by omega)]

theorem split_at {text : Bytes} {n : ℕ} {c : UInt8} (h : text[n]? = some c) :
    text = text.take n ++ c :: text.drop (n + 1) ∧ (text.take n).length = n := by
  obtain ⟨hn, rfl⟩ := List.getElem?_eq_some_iff.mp h
  refine ⟨?_, List.length_take_of_le (Nat.le_of_lt hn)⟩
  rw [← List.drop_eq_getElem_cons hn, List.take_append_drop]

theorem header_branch (st : IniState) (user : σ) (lineno : ℕ) (left : Bytes) {text : Bytes}
    (right : Bytes) (h : 0 ∉ text) {n : ℕ} (hn : n = end_of (some (bytes "]")) false text) :
    (do
      let last ← lift (find_chars_or_comment (left ++ (text ++ 0 :: right)) left.length
        (some (bytes "]")))
      if (left ++ (text ++ 0 :: right))[last]? = some 93 then
        let line ← lift (store (left ++ (text ++ 0 :: right)) last 0)
        let name ← lift (cstr line left.length)
        let sect ← lift (strncpy0_field name MAX_SECTION)
        return (⟨sect, []⟩, user, 0)
      else return (st, user, lineno)) =
      act handler st user lineno (if text[n]? = some 93 then .header (text.take n) else .malformed)
    := by
  have hle := end_of_le (some (bytes "]")) false text
  have hend := getElem?_end left right hle (c := 93) (by decide)
  rw [← hn] at hle hend
  rw [find_at _ left right h, ← hn]
  simp only [lift_ok, bind, Except.bind]
  by_cases hclose : text[n]? = some 93
  · obtain ⟨hsplit, hlen⟩ := split_at hclose
    have hname : 0 ∉ text.take n := fun h0 => h (List.mem_of_mem_take h0)
    have hstore : store (left ++ (text ++ 0 :: right)) (left.length + n) 0 =
        .ok (left ++ (text.take n ++ 0 :: (text.drop (n + 1) ++ 0 :: right))) := by
      have hat := store_at (left ++ text.take n) 93 (text.drop (n + 1) ++ 0 :: right) 0
      rw [List.length_append, hlen, List.append_assoc, List.append_assoc, ← List.cons_append,
        ← List.append_assoc (text.take n), ← hsplit] at hat
      exact hat
    have hfield := @strncpy0_field_eq (text.take n) hname MAX_SECTION (by decide)
    rw [if_pos hclose, if_pos (hend.mpr hclose), hstore]
    simp only [lift_ok, cstr_at _ hname, hfield]
    rfl
  · rw [if_neg hclose, if_neg (fun hc => hclose (hend.mp hc))]
    rfl

theorem pair_branch (st : IniState) (user : σ) (lineno : ℕ) (left : Bytes) {text : Bytes}
    (right : Bytes) (h : 0 ∉ text) {n : ℕ} (hn : n = end_of (some (bytes "=:")) false text) :
    (do
      let last ← lift (find_chars_or_comment (left ++ (text ++ 0 :: right)) left.length
        (some (bytes "=:")))
      if (left ++ (text ++ 0 :: right))[last]? = some 61 ∨
          (left ++ (text ++ 0 :: right))[last]? = some 58 then
        ini_pair handler st user lineno (left ++ (text ++ 0 :: right)) left.length last
      else return (st, user, lineno)) =
      act handler st user lineno (if text[n]? = some 61 ∨ text[n]? = some 58 then
        .pair (stripped (text.take n)) (value_of (text.drop (n + 1))) else .malformed) := by
  have hle := end_of_le (some (bytes "=:")) false text
  rw [← hn] at hle
  have heq := getElem?_end left right hle (c := 61) (by decide)
  have hcolon := getElem?_end left right hle (c := 58) (by decide)
  rw [find_at _ left right h, ← hn]
  simp only [lift_ok, bind, Except.bind]
  by_cases hsep : text[n]? = some 61 ∨ text[n]? = some 58
  · obtain ⟨sep, hget⟩ : ∃ sep, text[n]? = some sep := by
      rcases hsep with hget | hget <;> exact ⟨_, hget⟩
    obtain ⟨hsplit, hlen⟩ := split_at hget
    have hname : 0 ∉ text.take n := fun h0 => h (List.mem_of_mem_take h0)
    have hvalue : 0 ∉ text.drop (n + 1) := fun h0 => h (List.mem_of_mem_drop h0)
    have hpair := ini_pair_eq handler st user lineno left sep right hname hvalue
    rw [hlen, ← List.cons_append, ← List.append_assoc (text.take n), ← hsplit] at hpair
    rw [if_pos hsep, if_pos (hsep.imp heq.mpr hcolon.mpr)]
    exact hpair
  · rw [if_neg hsep, if_neg (fun hc => hsep (hc.imp heq.mp hcolon.mp))]
    rfl

theorem ini_branch_eq (st : IniState) (user : σ) (lineno : ℕ) (left : Bytes) {text : Bytes}
    (right : Bytes) (h : 0 ∉ text) :
    ini_branch handler st user lineno (left ++ (text ++ 0 :: right)) left.length =
      act handler st user lineno (line_kind (0 < left.length) st.prev_name text) := by
  cases text with
  | nil =>
    have hload : load (left ++ ([] ++ 0 :: right)) left.length = .ok 0 := by
      rw [load, List.nil_append, List.getElem?_append_right (Nat.le_refl _), Nat.sub_self]
      rfl
    simp only [ini_branch, hload, lift_ok, bind, Except.bind]
    rw [if_neg (by decide), if_neg (by simp), if_neg (by decide), if_neg (by simp)]
    rfl
  | cons c text =>
    have hc : c ≠ 0 := fun h0 => h (h0 ▸ List.mem_cons_self)
    have htext : 0 ∉ text := fun h0 => h (List.mem_cons_of_mem c h0)
    have hload : load (left ++ (c :: text ++ 0 :: right)) left.length = .ok c := by simp [load]
    rw [ini_branch, hload, line_kind]
    change (if c = 59 ∨ c = 35 then _ else _) = _
    by_cases hcomment : c = 59 ∨ c = 35
    · rw [if_pos hcomment, if_pos hcomment]
      rfl
    rw [if_neg hcomment, if_neg hcomment]
    by_cases hmore : st.prev_name ≠ [] ∧ decide (0 < left.length) = true
    · have hcond : st.prev_name ≠ [] ∧ c ≠ 0 ∧ left.length > 0 :=
        ⟨hmore.1, hc, of_decide_eq_true hmore.2⟩
      rw [if_pos hmore, if_pos hcond, cstr_at right h, act]
      simp only [lift_ok, bind, Except.bind]
      cases handle handler user st.sect st.prev_name (c :: text) lineno <;> rfl
    have hcond : ¬(st.prev_name ≠ [] ∧ c ≠ 0 ∧ left.length > 0) :=
      fun hcond => hmore ⟨hcond.1, decide_eq_true hcond.2.2⟩
    rw [if_neg hmore, if_neg hcond]
    by_cases hopen : c = 91
    · subst hopen
      have hbranch := header_branch handler st user lineno (left ++ [91]) right htext rfl
      rw [List.length_append, List.length_singleton, List.append_assoc, List.singleton_append,
        ← List.cons_append] at hbranch
      rw [if_pos rfl, if_pos rfl]
      exact hbranch
    · rw [if_neg hopen, if_neg hopen, if_pos hc]
      exact pair_branch handler st user lineno left right h rfl

theorem byte_order_mark_eq {text : Bytes} (right : Bytes) :
    byte_order_mark (text ++ 0 :: right) = .ok (decide ([0xEF, 0xBB, 0xBF] <+: text)) := by
  have hload₀ : ∀ c rest, load (c :: rest) 0 = .ok c := fun c rest => rfl
  have hload₁ : ∀ b c rest, load (b :: c :: rest) 1 = .ok c := fun b c rest => rfl
  have hload₂ : ∀ a b c rest, load (a :: b :: c :: rest) 2 = .ok c := fun a b c rest => rfl
  match text with
  | [] => rfl
  | [a] =>
    by_cases ha : a = 0xEF <;>
      simp [byte_order_mark, hload₀, hload₁, ha, bind, Except.bind, pure, Except.pure]
  | [a, b] =>
    by_cases ha : a = 0xEF <;> by_cases hb : b = 0xBB <;>
      simp [byte_order_mark, hload₀, hload₁, hload₂, ha, hb, bind, Except.bind, pure, Except.pure]
  | a :: b :: c :: rest =>
    by_cases ha : a = 0xEF <;> by_cases hb : b = 0xBB <;> by_cases hc : c = 0xBF <;>
      simp [byte_order_mark, hload₀, hload₁, hload₂, ha, hb, hc, List.cons_prefix_cons, bind,
        Except.bind, pure, Except.pure, eq_comm]

theorem ini_line_eq (st : IniState) (user : σ) (lineno : ℕ) {text : Bytes} (right : Bytes)
    (h : 0 ∉ text) :
    ini_line handler st user lineno (text ++ 0 :: right) =
      act handler st user lineno (kind_of lineno st.prev_name text) := by
  have hmark : (if lineno = 1 then byte_order_mark (text ++ 0 :: right) else .ok false) =
      .ok (decide (lineno = 1 ∧ [0xEF, 0xBB, 0xBF] <+: text)) := by
    by_cases hfirst : lineno = 1
    · rw [if_pos hfirst, byte_order_mark_eq]
      simp [hfirst]
    · simp [hfirst]
  have hstart : (if decide (lineno = 1 ∧ [0xEF, 0xBB, 0xBF] <+: text) = true then 3 else 0) =
      marked lineno text := by
    rw [marked]
    simp
  obtain ⟨n, hn⟩ : ∃ n, n = marked lineno text := ⟨_, rfl⟩
  have hle : n ≤ text.length := by
    rw [hn, marked]
    split
    · next hm => exact hm.2.length_le
    · exact Nat.zero_le _
  have hlen : (text.take n).length = n := List.length_take_of_le hle
  have hdrop : 0 ∉ text.drop n := fun h0 => h (List.mem_of_mem_drop h0)
  have htrim := @rstrip_at (text.take n) (text.drop n) right hdrop
  have hskip := @lskip_at (text.take n) (text.drop n) right hdrop
  obtain ⟨rest, hwiped⟩ := wiped_split (text.drop n) right
  have htrimmed : 0 ∉ trimmed (text.drop n) := fun h0 => hdrop (trimmed_subset h0)
  have hbranch := ini_branch_eq handler st user lineno
    (text.take n ++ (stripped (text.drop n)).takeWhile isspace) rest htrimmed
  rw [← List.append_assoc, List.take_append_drop, hlen] at htrim
  rw [hlen] at hskip
  rw [List.append_assoc, ← hwiped, List.length_append, hlen] at hbranch
  rw [ini_line, hmark]
  simp only [lift_ok, bind, Except.bind, hstart, ← hn, htrim, hskip]
  rw [kind_of, ← hn]
  exact hbranch

end IniLines
