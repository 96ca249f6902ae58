import Ayahesa.MarkedSpans
import Ayahesa.ViewMemorySafety

/-! # Removal of comments

The pass takes the first opening mark and the first closing mark of the whole buffer for the
marks of one comment. A closing mark of its own, such as the `*/` in front of a CSS at-rule, then
makes the length of the cut negative, or zero for ever. -/
namespace CommentRemoval

open CMemory ByteSearch KoreApi KoreBuffer LoopIteration ViewPasses ViewDirectives
open ViewMemorySafety MarkedSpans

def uncommented (d : Bytes) : Bytes := removed TOk_COMMENT_OPEN TOk_COMMENT_CLOSE d.length d

def Uncomments (K : Kore) (b : KoreBuf) : Prop :=
  ∃ b', Returns (process_comment_body K) b b' ∧ b'.data = uncommented b.data ∧
    b'.data.length ≤ b.data.length

variable {K : Kore} {b : KoreBuf}

/-! ## One round -/

theorem round_removes {s t : Scan UInt8} (hb : b.data = s.text)
    (h : Removes TOk_COMMENT_OPEN TOk_COMMENT_CLOSE s t) :
    ∃ n, process_comment_body K b = .ok (.next ⟨t.text, n⟩) := by
  obtain ⟨p, q, hp, hq, _, hpq, rfl⟩ :=
    h.marks TOk_COMMENT_OPEN_token.head TOk_COMMENT_CLOSE_token.head
  rw [← hb] at hp hq
  obtain ⟨n, hn⟩ := comment_cut (K := K) hp hq (by omega)
  exact ⟨n, by rw [hn, hb]; rfl⟩

/-! ## Whole runs -/

/-- The rounds of an orderly part can be left out. -/
theorem returns_of_reaches {s : Scan UInt8}
    (h : Reaches TOk_COMMENT_OPEN TOk_COMMENT_CLOSE b.data s) :
    ∃ b₁, b₁.data = s.text ∧ ∀ b', Returns (process_comment_body K) b b' ↔
      Returns (process_comment_body K) b₁ b' := by
  induction h with
  | refl => exact ⟨b, rfl, fun b' => Iff.rfl⟩
  | @tail s t _ hstep ih =>
    obtain ⟨b₁, hb₁, hrun⟩ := ih
    obtain ⟨n, hn⟩ := round_removes (K := K) hb₁ hstep
    exact ⟨⟨t.text, n⟩, rfl, fun b' => (hrun b').trans (returns_of_next_iff hn)⟩

theorem uncomments_of_orderly (h : Orderly TOk_COMMENT_OPEN TOk_COMMENT_CLOSE b.data) :
    Uncomments K b := by
  obtain ⟨s, hreach, hend⟩ := h
  obtain ⟨b₁, hb₁, hrun⟩ := returns_of_reaches (K := K) hreach
  have htext : s.text = uncommented b.data := hreach.text_removed TOk_COMMENT_OPEN_token.head
    TOk_COMMENT_CLOSE_token.head hend
  rw [← hb₁] at hend htext
  refine ⟨b₁, (hrun b₁).mpr (.of_done (comment_done hend)), htext, ?_⟩
  rw [htext]
  exact removed_length_le _ _

theorem not_returns_of_stray (h : Stray TOk_COMMENT_OPEN TOk_COMMENT_CLOSE b.data) (b' : KoreBuf) :
    ¬ Returns (process_comment_body K) b b' := by
  intro hret
  obtain ⟨s, p, q, hreach, hp, hq, hpq⟩ := h
  obtain ⟨b₁, hb₁, hrun⟩ := returns_of_reaches (K := K) hreach
  have hret₁ := (hrun b').mp hret
  rw [← hb₁] at hp hq
  rcases Nat.lt_or_eq_of_le hpq with hlt | heq
  · have herr := comment_negative (K := K) hp hq hlt
    rcases hret₁.cases with hdone | ⟨u, hnext, _⟩
    · rw [herr] at hdone
      cases hdone
    · rw [herr] at hnext
      cases hnext
  · have hstuck : ∀ u : KoreBuf, u.data = b₁.data →
        ∃ v, process_comment_body K u = .ok (.next v) ∧ v.data = b₁.data := by
      intro u hu
      rw [← hu] at hp hq
      obtain ⟨n, hn⟩ := comment_cut (K := K) hp hq heq.ge
      rw [heq, List.take_append_drop] at hn
      exact ⟨_, hn, hu⟩
    obtain ⟨n, hn⟩ := hret₁
    exact not_ends_of_invariant (fun u => u.data = b₁.data) hstuck rfl ⟨n, _, hn⟩

/-- The pass removes the comments of an orderly buffer, and of no other one unless its marks
touch. -/
theorem process_comment_iff (K : Kore) (b : KoreBuf) :
    (Orderly TOk_COMMENT_OPEN TOk_COMMENT_CLOSE b.data → Uncomments K b) ∧
    (¬ Touching TOk_COMMENT_OPEN TOk_COMMENT_CLOSE b.data →
      (Uncomments K b ↔ Orderly TOk_COMMENT_OPEN TOk_COMMENT_CLOSE b.data)) := by
  refine ⟨uncomments_of_orderly, fun htouch => ⟨?_, uncomments_of_orderly⟩⟩
  intro hun
  rcases orderly_or TOk_COMMENT_OPEN_token.head.ne_nil TOk_COMMENT_CLOSE_token.head.ne_nil b.data
    with horderly | hstray | htouching
  · exact horderly
  · obtain ⟨b', hret, _⟩ := hun
    exact absurd hret (not_returns_of_stray hstray b')
  · exact absurd htouching htouch

/-- `<p>@/* x */@</p>` -/
def remark : Bytes :=
  bytes "<p>" ++ (TOk_COMMENT_OPEN ++ (bytes " x " ++ (TOk_COMMENT_CLOSE ++ bytes "</p>")))

theorem remark_orderly : Orderly TOk_COMMENT_OPEN TOk_COMMENT_CLOSE remark :=
  ⟨⟨bytes "<p>", bytes "</p>"⟩, .single (@Removes.span _ _ _ [] _ _ _ (by decide) (by decide)),
    Or.inl (by decide)⟩

theorem process_comment_remark : Uncomments reference (kore_buf_of remark) ∧
    (Uncomments reference (kore_buf_of remark) ↔
      Orderly TOk_COMMENT_OPEN TOk_COMMENT_CLOSE remark) :=
  ⟨(process_comment_iff reference (kore_buf_of remark)).1 remark_orderly,
    (process_comment_iff reference (kore_buf_of remark)).2
      (remark_orderly.not_touching TOk_COMMENT_OPEN_token.head TOk_COMMENT_CLOSE_token.head)⟩

/-- A closing mark that ends a CSS comment and begins an at-rule. -/
theorem stray_mark_faults : ¬ ∀ (K : Kore) (b : KoreBuf), Uncomments K b := by
  intro hall
  obtain ⟨b', hret, _⟩ := hall reference (kore_buf_of (bytes "*/@media @/* x */@"))
  have herr : process_comment_body reference (kore_buf_of (bytes "*/@media @/* x */@")) =
      .error .outOfBounds := by decide +kernel
  rcases hret.cases with hdone | ⟨u, hnext, _⟩
  · rw [herr] at hdone
    cases hdone
  · rw [herr] at hnext
    cases hnext

end CommentRemoval
