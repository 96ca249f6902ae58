import Mathlib.Data.List.Basic
import Mathlib.Tactic.Common

/-! # Regrouping eight-bit numbers into six-bit numbers

Three numbers below 256 become four below 64; a rest of one or two becomes two or three,
with zero bits filled in at the end. No padding symbol is kept. -/
namespace SextetCodec

def pack : List ℕ → List ℕ
  | a :: b :: c :: rest =>
    a / 4 :: (a % 4 * 16 + b / 16) :: (b % 16 * 4 + c / 64) :: c % 64 :: pack rest
  | [a, b] => [a / 4, a % 4 * 16 + b / 16, b % 16 * 4]
  | [a] => [a / 4, a % 4 * 16]
  | [] => []

/-- A single left-over sextet carries no whole byte and is dropped. -/
def unpack : List ℕ → List ℕ
  | a :: b :: c :: d :: rest =>
    (a * 4 + b / 16) :: (b % 16 * 16 + c / 4) :: (c % 4 * 64 + d) :: unpack rest
  | [a, b, c] => [a * 4 + b / 16, b % 16 * 16 + c / 4]
  | [a, b] => [a * 4 + b / 16]
  | [_] => []
  | [] => []

/-- The bits of the last sextet that belong to no byte are zero. -/
def TailZero (s : List ℕ) : Prop :=
  (s.length % 4 = 2 → ∀ v, s.getLast? = some v → v % 16 = 0) ∧
  (s.length % 4 = 3 → ∀ v, s.getLast? = some v → v % 4 = 0)

theorem pack_length (x : List ℕ) : (pack x).length = (4 * x.length + 2) / 3 := by
  induction x using pack.induct with
  | case1 a b c rest ih => simp only [pack, List.length_cons, ih]; omega
  | case2 => simp [pack]
  | case3 => simp [pack]
  | case4 => rfl

theorem unpack_length (s : List ℕ) : (unpack s).length = 3 * s.length / 4 := by
  induction s using unpack.induct with
  | case1 a b c d rest ih => simp only [unpack, List.length_cons, ih]; omega
  | case2 => simp [unpack]
  | case3 => simp [unpack]
  | case4 => simp [unpack]
  | case5 => rfl

theorem pack_lt {x : List ℕ} (hx : ∀ v ∈ x, v < 256) : ∀ v ∈ pack x, v < 64 := by
  induction x using pack.induct with
  | case1 a b c rest ih =>
    have ha := hx a (by simp)
    have hb := hx b (by simp)
    have hc := hx c (by simp)
    have hrest := ih fun v hv => hx v (by simp [hv])
    intro v hv
    simp only [pack, List.mem_cons] at hv
    rcases hv with rfl | rfl | rfl | rfl | hv
    · omega
    · omega
    · omega
    · omega
    · exact hrest v hv
  | case2 a b =>
    have ha := hx a (by simp)
    have hb := hx b (by simp)
    intro v hv
    simp only [pack, List.mem_cons, List.not_mem_nil, or_false] at hv
    omega
  | case3 a =>
    have ha := hx a (by simp)
    intro v hv
    simp only [pack, List.mem_cons, List.not_mem_nil, or_false] at hv
    omega
  | case4 => simp [pack]

theorem unpack_lt {s : List ℕ} (hs : ∀ v ∈ s, v < 64) : ∀ v ∈ unpack s, v < 256 := by
  induction s using unpack.induct with
  | case1 a b c d rest ih =>
    have ha := hs a (by simp)
    have hb := hs b (by simp)
    have hc := hs c (by simp)
    have hd := hs d (by simp)
    have hrest := ih fun v hv => hs v (by simp [hv])
    intro v hv
    simp only [unpack, List.mem_cons] at hv
    rcases hv with rfl | rfl | rfl | hv
    · omega
    · omega
    · omega
    · exact hrest v hv
  | case2 a b c =>
    have ha := hs a (by simp)
    have hb := hs b (by simp)
    have hc := hs c (by simp)
    intro v hv
    simp only [unpack, List.mem_cons, List.not_mem_nil, or_false] at hv
    omega
  | case3 a b =>
    have ha := hs a (by simp)
    have hb := hs b (by simp)
    intro v hv
    simp only [unpack, List.mem_cons, List.not_mem_nil, or_false] at hv
    omega
  | case4 => simp [unpack]
  | case5 => simp [unpack]

theorem pack_append {x : List ℕ} (y : List ℕ) (h : x.length % 3 = 0) :
    pack (x ++ y) = pack x ++ pack y := by
  induction x using pack.induct with
  | case1 a b c rest ih =>
    have hrest := ih (by simp only [List.length_cons] at h; omega)
    simp [pack, hrest]
  | case2 => simp at h
  | case3 => simp at h
  | case4 => simp [pack]

theorem unpack_append {s : List ℕ} (t : List ℕ) (h : s.length % 4 = 0) :
    unpack (s ++ t) = unpack s ++ unpack t := by
  induction s using unpack.induct with
  | case1 a b c d rest ih =>
    have hrest := ih (by simp only [List.length_cons] at h; omega)
    simp [unpack, hrest]
  | case2 => simp at h
  | case3 => simp at h
  | case4 => simp at h
  | case5 => simp [unpack]

theorem unpack_pack {x : List ℕ} (hx : ∀ v ∈ x, v < 256) : unpack (pack x) = x := by
  induction x using pack.induct with
  | case1 a b c rest ih =>
    have ha := hx a (by simp)
    have hb := hx b (by simp)
    have hc := hx c (by simp)
    have hrest := ih fun v hv => hx v (by simp [hv])
    simp only [pack, unpack, hrest, List.cons.injEq, and_true]
    omega
  | case2 a b =>
    have ha := hx a (by simp)
    have hb := hx b (by simp)
    simp only [pack, unpack, List.cons.injEq, and_true]
    omega
  | case3 a =>
    have ha := hx a (by simp)
    simp only [pack, unpack, List.cons.injEq, and_true]
    omega
  | case4 => rfl

private theorem tailZero_of_group {a b c d : ℕ} {rest : List ℕ}
    (h : TailZero (a :: b :: c :: d :: rest)) : TailZero rest := by
  have hlen : (a :: b :: c :: d :: rest).length % 4 = rest.length % 4 := by
    simp only [List.length_cons]; omega
  have hlast : ∀ v, rest.getLast? = some v → (a :: b :: c :: d :: rest).getLast? = some v := by
    intro v hv
    rcases rest with _ | ⟨e, rest⟩
    · simp at hv
    · simpa using hv
  exact ⟨fun h2 v hv => h.1 (hlen.trans h2) v (hlast v hv),
    fun h3 v hv => h.2 (hlen.trans h3) v (hlast v hv)⟩

theorem pack_unpack {s : List ℕ} (hs : ∀ v ∈ s, v < 64) (hlen : s.length % 4 ≠ 1)
    (hz : TailZero s) : pack (unpack s) = s := by
  induction s using unpack.induct with
  | case1 a b c d rest ih =>
    have ha := hs a (by simp)
    have hb := hs b (by simp)
    have hc := hs c (by simp)
    have hd := hs d (by simp)
    have hrest := ih (fun v hv => hs v (by simp [hv]))
      (by simp only [List.length_cons] at hlen; omega) (tailZero_of_group hz)
    simp only [unpack, pack, hrest, List.cons.injEq, and_true]
    omega
  | case2 a b c =>
    have ha := hs a (by simp)
    have hb := hs b (by simp)
    have hc := hs c (by simp)
    have hzero := hz.2 rfl c rfl
    simp only [unpack, pack, List.cons.injEq, and_true]
    omega
  | case3 a b =>
    have ha := hs a (by simp)
    have hb := hs b (by simp)
    have hzero := hz.1 rfl b rfl
    simp only [unpack, pack, List.cons.injEq, and_true]
    omega
  | case4 => simp at hlen
  | case5 => rfl

end SextetCodec
