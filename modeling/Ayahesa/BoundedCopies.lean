import Ayahesa.AppConfig

/-! # What the bounded copies leave in a field

A field is the part of a block that the size of a call stands for. What a call does is the same
whatever lies behind its field. -/
namespace BoundedCopies

open CMemory CompatCopy AppConfig

def Stored (field : Block) (text : Bytes) : Prop :=
  0 ∉ text ∧ ∃ rest, field = terminated text ++ rest

/-- All bytes of the field are set and none of them is a NUL. -/
def Unterminated (field : Block) : Prop := ∀ x ∈ field, ∃ c, x = some c ∧ c ≠ 0

/-- A call on a field, wherever it lies, leaves another field of the same size and returns a
number; a byte behind the field is neither read nor written. -/
structure Leaves (call : Block → C (Block × ℕ)) (field field' : Block) (result : ℕ) : Prop where
  size : field'.length = field.length
  framed : ∀ behind, call (field ++ behind) = .ok (field' ++ behind, result)

theorem terminated_length (text : Bytes) : (terminated text).length = text.length + 1 := by
  rw [terminated, List.length_append, List.length_map, List.length_singleton]

theorem Stored.length_lt {field : Block} {text : Bytes} (h : Stored field text) :
    text.length < field.length := by
  obtain ⟨-, rest, rfl⟩ := h
  rw [List.length_append, terminated_length]
  omega

theorem take_clean {text : Bytes} (h : 0 ∉ text) (k : ℕ) : 0 ∉ text.take k :=
  fun h0 => h (List.mem_of_mem_take h0)

section Field

variable {field : Block} {src text : Bytes}

theorem strlcpy_leaves (hsrc : 0 ∉ src) (hpos : 1 ≤ field.length) :
    ∃ field', Leaves (fun dst => aya_strlcpy dst src field.length) field field' src.length ∧
      Stored field' (src.take (field.length - 1)) := by
  have hcut : (src.take (field.length - 1)).length + 1 ≤ field.length := by
    rw [List.length_take]
    omega
  refine ⟨_, ⟨?_, fun behind => ?_⟩, take_clean hsrc _,
    field.drop ((src.take (field.length - 1)).length + 1), rfl⟩
  · rw [List.length_append, terminated_length, List.length_drop]
    omega
  · have hcopy := aya_strlcpy_eq (field ++ behind) src hpos (by rw [List.length_append]; omega)
    rw [hcopy, List.drop_append_of_le_length hcut, List.append_assoc]

/-- The old NUL gives way to as much of the source as the field has room for. -/
theorem strlcat_leaves (hsrc : 0 ∉ src) (h : Stored field text) :
    ∃ field', Leaves (fun dst => aya_strlcat dst src field.length) field field'
        (text.length + src.length) ∧
      Stored field' ((text ++ src).take (field.length - 1)) := by
  have hlt := h.length_lt
  obtain ⟨htext, rest, rfl⟩ := h
  have hlen : (terminated text ++ rest).length = text.length + 1 + rest.length := by
    rw [List.length_append, terminated_length]
  have hroom : (terminated text ++ rest).length - 1 - text.length = rest.length := by omega
  have hcut : (src.take rest.length).length ≤ rest.length := List.length_take_le _ _
  have htake : (text ++ src).take ((terminated text ++ rest).length - 1) =
      text ++ src.take rest.length := by
    rw [List.take_append, List.take_of_length_le (by omega), hroom]
  have hclean : 0 ∉ text ++ src.take rest.length := by
    rw [List.mem_append]
    exact fun h0 => h0.elim htext (take_clean hsrc _)
  refine ⟨_, ⟨?_, fun behind => ?_⟩, htake ▸ hclean,
    rest.drop (src.take rest.length).length, congrArg (terminated · ++ _) htake.symm⟩
  · rw [List.length_append, terminated_length, List.length_append, List.length_drop, hlen]
    omega
  · have happend := aya_strlcat_eq htext src (rest ++ behind) hlt
      (by rw [hlen, List.length_append]; omega)
    rw [hroom] at happend
    rw [List.append_assoc, happend, List.drop_append_of_le_length hcut, List.append_assoc]

/-- The search for the end stops behind the field. -/
theorem end_loop_over (front behind : Block) (h : Unterminated field) :
    end_loop (front ++ (field ++ behind)) front.length field.length =
      .ok (front.length + field.length) := by
  induction field generalizing front with
  | nil => rfl
  | cons x field ih =>
    obtain ⟨c, rfl, hc⟩ := h x List.mem_cons_self
    have ih := ih (front ++ [some c]) fun y hy => h y (List.mem_cons_of_mem _ hy)
    have hread : CompatCopy.read (front ++ (some c :: field ++ behind)) front.length = .ok c := by
      simp [CompatCopy.read]
    rw [List.length_append, List.length_singleton, List.append_assoc, List.singleton_append] at ih
    rw [List.length_cons, end_loop, hread]
    simp only [bind, Except.bind]
    rw [if_neg hc, List.cons_append, ih]
    congr 1
    omega

theorem strlcat_full (hpos : 1 ≤ field.length) (src : Bytes) (h : Unterminated field) :
    Leaves (fun dst => aya_strlcat dst src field.length) field field
      (field.length + src.length) := by
  refine ⟨rfl, fun behind => ?_⟩
  have hend := end_loop_over [] behind h
  rw [List.nil_append, List.length_nil, Nat.zero_add] at hend
  simp only [aya_strlcat, if_neg (Nat.ne_of_gt hpos), hend, bind, Except.bind, Nat.sub_self,
    if_true]
  rfl

end Field

/-- For every source and every field: the copy leaves as much of the source as fits in front of a
NUL, the append as much of both texts, or nothing new where the field has no NUL. The key of a
setting therefore is its section and its name with a dot between them. -/
theorem bounded_copies (field : Block) (src : Bytes) (hpos : 1 ≤ field.length)
    (hsrc : 0 ∉ src) :
    (∃ field', Leaves (fun dst => aya_strlcpy dst src field.length) field field' src.length ∧
      Stored field' (src.take (min src.length (field.length - 1)))) ∧
    (∀ text, Stored field text → ∃ field',
      Leaves (fun dst => aya_strlcat dst src field.length) field field'
        (text.length + src.length) ∧
      Stored field' ((text ++ src).take (field.length - 1))) ∧
    (Unterminated field → Leaves (fun dst => aya_strlcat dst src field.length) field field
      (field.length + src.length)) ∧
    ∀ sect name, 0 ∉ sect → 0 ∉ name →
      compose_key sect name = .ok (sect ++ bytes "." ++ name) := by
  refine ⟨?_, fun text => strlcat_leaves hsrc, strlcat_full hpos src,
    fun sect name => compose_key_eq⟩
  obtain ⟨field', hleaves, hstored⟩ := strlcpy_leaves hsrc hpos
  refine ⟨field', hleaves, ?_⟩
  rw [List.take_eq_take_min, Nat.min_comm] at hstored
  exact hstored

theorem bounded_copies_cut :
    (∃ field', Leaves (fun dst => aya_strlcpy dst (bytes "abc") 3) (aya_malloc 3) field' 3 ∧
      Stored field' (bytes "ab")) ∧
    (∃ field', Leaves (fun dst => aya_strlcat dst (bytes "bc") 3) (terminated (bytes "a") ++ [none])
      field' 3 ∧ Stored field' (bytes "ab")) ∧
    Leaves (fun dst => aya_strlcat dst (bytes "c") 2) [some 97, some 98] [some 97, some 98] 3 := by
  have hcopy := (bounded_copies (aya_malloc 3) (bytes "abc") (by decide) (by decide)).1
  have happend := (bounded_copies (terminated (bytes "a") ++ [none]) (bytes "bc") (by decide)
    (by decide)).2.1 (bytes "a") ⟨by decide, [none], rfl⟩
  have hset : Unterminated [some 97, some 98] := by
    intro x hx
    rcases List.mem_pair.mp hx with rfl | rfl
    · exact ⟨97, rfl, by decide⟩
    · exact ⟨98, rfl, by decide⟩
  have hfull := (bounded_copies [some 97, some 98] (bytes "c") (by decide) (by decide)).2.2.1 hset
  exact ⟨hcopy, happend, hfull⟩

end BoundedCopies
