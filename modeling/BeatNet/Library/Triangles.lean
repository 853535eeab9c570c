import Mathlib.Algebra.BigOperators.Group.List.Basic
import Mathlib.Algebra.Order.Field.Basic
import Mathlib.Algebra.Order.Floor.Ring

namespace BeatNet.Library.Triangles

variable {K : Type*} [Field K] [LinearOrder K] {l c r x y : K}

/-- The triangle of height one over the corners `l` and `r`, with its top at `c`. -/
def triangle (l c r x : K) : K :=
  if l ≤ x ∧ x < c then (x - l) / (c - l)
  else if c ≤ x ∧ x < r then (r - x) / (r - c)
  else 0

def heights : List K → K → List K
  | l :: c :: r :: corners, x => triangle l c r x :: heights (c :: r :: corners) x
  | _, _ => []

theorem triangle_of_rise (h : l ≤ x ∧ x < c) : triangle l c r x = (x - l) / (c - l) := if_pos h

theorem triangle_of_fall (h : c ≤ x ∧ x < r) : triangle l c r x = (r - x) / (r - c) := by
  simp only [triangle, not_lt.mpr h.1, and_false, if_false, h, and_self, if_true]

theorem triangle_of_outside (hl : ¬ (l ≤ x ∧ x < c)) (hr : ¬ (c ≤ x ∧ x < r)) :
    triangle l c r x = 0 := by
  simp only [triangle, if_neg hl, if_neg hr]

variable [IsStrictOrderedRing K]

theorem triangle_pos_iff (hl : l < c) (hr : c < r) : 0 < triangle l c r x ↔ l < x ∧ x < r := by
  by_cases hrise : l ≤ x ∧ x < c
  · rw [triangle_of_rise hrise, div_pos_iff_of_pos_right (sub_pos.mpr hl), sub_pos]
    exact ⟨fun h ↦ ⟨h, hrise.2.trans hr⟩, And.left⟩
  · by_cases hfall : c ≤ x ∧ x < r
    · have hpos : 0 < (r - x) / (r - c) := div_pos (sub_pos.mpr hfall.2) (sub_pos.mpr hr)
      simp only [triangle_of_fall hfall, hpos, hl.trans_le hfall.1, hfall.2, and_self]
    · rw [triangle_of_outside hrise hfall]
      refine ⟨fun h ↦ absurd h (lt_irrefl 0), fun h ↦ ?_⟩
      rcases lt_or_ge x c with hx | hx
      · exact absurd ⟨h.1.le, hx⟩ hrise
      · exact absurd ⟨hx, h.2⟩ hfall

theorem triangle_bounds (hl : l ≤ c) (hr : c ≤ r) :
    0 ≤ triangle l c r x ∧ triangle l c r x ≤ 1 ∧ (¬ (l ≤ x ∧ x < r) → triangle l c r x = 0) := by
  by_cases hrise : l ≤ x ∧ x < c
  · have hpos : 0 < c - l := sub_pos.mpr (hrise.1.trans_lt hrise.2)
    rw [triangle_of_rise hrise]
    refine ⟨div_nonneg (sub_nonneg.mpr hrise.1) hpos.le, ?_, fun h ↦ ?_⟩
    · exact (div_le_one hpos).mpr (sub_le_sub_right hrise.2.le l)
    · exact absurd ⟨hrise.1, hrise.2.trans_le hr⟩ h
  · by_cases hfall : c ≤ x ∧ x < r
    · have hpos : 0 < r - c := sub_pos.mpr (hfall.1.trans_lt hfall.2)
      rw [triangle_of_fall hfall]
      refine ⟨div_nonneg (sub_nonneg.mpr hfall.2.le) hpos.le, ?_, fun h ↦ ?_⟩
      · exact (div_le_one hpos).mpr (sub_le_sub_left hfall.1 r)
      · exact absurd ⟨hl.trans hfall.1, hfall.2⟩ h
    · rw [triangle_of_outside hrise hfall]
      exact ⟨le_rfl, zero_le_one, fun _ ↦ rfl⟩

theorem triangle_nonneg (hl : l < c) (hr : c < r) : 0 ≤ triangle l c r x :=
  (triangle_bounds hl.le hr.le).1

theorem triangle_eq_zero_iff (hl : l < c) (hr : c < r) :
    triangle l c r x = 0 ↔ ¬ (l < x ∧ x < r) := by
  rw [← triangle_pos_iff hl hr, not_lt, (triangle_nonneg hl hr).ge_iff_eq']

theorem triangle_lt_of_rise (hx : l ≤ x) (hxy : x < y) (hy : y < c) :
    triangle l c r x < triangle l c r y := by
  have hpos : 0 < c - l := sub_pos.mpr (hx.trans_lt (hxy.trans hy))
  rw [triangle_of_rise ⟨hx, hxy.trans hy⟩, triangle_of_rise ⟨hx.trans hxy.le, hy⟩]
  exact div_lt_div_of_pos_right (sub_lt_sub_right hxy l) hpos

theorem triangle_lt_of_fall (hx : c ≤ x) (hxy : x < y) (hy : y < r) :
    triangle l c r y < triangle l c r x := by
  have hpos : 0 < r - c := sub_pos.mpr (hx.trans_lt (hxy.trans hy))
  rw [triangle_of_fall ⟨hx, hxy.trans hy⟩, triangle_of_fall ⟨hx.trans hxy.le, hy⟩]
  exact div_lt_div_of_pos_right (sub_lt_sub_left hxy r) hpos

theorem triangle_mul {a : K} (ha : 0 < a) :
    triangle (a * l) (a * c) (a * r) (a * x) = triangle l c r x := by
  simp only [triangle, mul_le_mul_iff_right₀ ha, mul_lt_mul_iff_right₀ ha, ← mul_sub,
    mul_div_mul_left _ _ ha.ne']

theorem triangle_eq_triangle_iff (hl : l < c) (hr : c < r)
    (hapart : ¬ ((l < x ∧ x < r) ∧ (l < y ∧ y < r))) :
    triangle l c r x = triangle l c r y ↔ ¬ (l < x ∧ x < r) ∧ ¬ (l < y ∧ y < r) := by
  apply Iff.intro
  · intro heq
    have hiff : l < x ∧ x < r ↔ l < y ∧ y < r := by
      rw [← triangle_pos_iff hl hr, heq, triangle_pos_iff hl hr]
    exact ⟨fun hx ↦ hapart ⟨hx, hiff.mp hx⟩, fun hy ↦ hapart ⟨hiff.mpr hy, hy⟩⟩
  · intro h
    rw [(triangle_eq_zero_iff hl hr).mpr h.1, (triangle_eq_zero_iff hl hr).mpr h.2]

omit [IsStrictOrderedRing K] in
theorem triangle_natCast [FloorRing K] (j : ℕ) :
    (if ⌈l⌉ ≤ (j : ℤ) ∧ (j : ℤ) < ⌈c⌉ then (j - l) / (c - l)
      else if ⌈c⌉ ≤ (j : ℤ) ∧ (j : ℤ) < ⌈r⌉ then (r - j) / (r - c)
      else 0) = triangle l c r j := by
  simp only [triangle, Int.ceil_le, Int.lt_ceil, Int.cast_natCast]

section Neighbours

variable {corners inner : List K} {first last top : K}

omit [IsStrictOrderedRing K] in
theorem heights_of_lt (h : ∀ y ∈ corners, x < y) : ∀ height ∈ heights corners x, height = 0 := by
  fun_induction heights corners x with
  | case1 l c r corners x ih =>
    obtain ⟨hl, h⟩ := List.forall_mem_cons.mp h
    obtain ⟨hc, _⟩ := List.forall_mem_cons.mp h
    refine List.forall_mem_cons.mpr ⟨?_, ih h⟩
    exact triangle_of_outside (fun hx ↦ not_lt.mpr hx.1 hl) fun hx ↦ not_lt.mpr hx.1 hc
  | case2 => simp

/-- Between the second corner and the last but one the heights add up to one: wherever a triangle
falls, the next one rises. -/
theorem sum_heights (hsorted : (l :: (inner ++ [top])).Pairwise (· ≤ ·))
    (hfirst : inner.head? = some first) (hlast : inner.getLast? = some last) (hlow : first ≤ x)
    (hhigh : x < last) : (heights (l :: (inner ++ [top])) x).sum = 1 := by
  induction inner generalizing l first with
  | nil => cases hfirst
  | cons c inner ih =>
    cases hfirst
    obtain ⟨_, hsorted⟩ := List.pairwise_cons.mp hsorted
    cases inner with
    | nil =>
      cases hlast
      exact absurd hlow (not_le.mpr hhigh)
    | cons d inner =>
      rw [List.cons_append, List.cons_append] at hsorted
      have hnext := (List.pairwise_cons.mp hsorted).2
      rw [List.cons_append, List.cons_append, heights, List.sum_cons]
      by_cases hx : x < d
      · obtain ⟨e, rest, hrest⟩ : ∃ e rest, inner ++ [top] = e :: rest :=
          List.exists_cons_of_ne_nil (by simp)
        have hpos : 0 < d - c := sub_pos.mpr (hlow.trans_lt hx)
        rw [hrest] at hnext
        have hbeyond : ∀ y ∈ d :: e :: rest, x < y := by
          intro y hy
          rcases List.mem_cons.mp hy with rfl | hy
          · exact hx
          · exact hx.trans_le ((List.pairwise_cons.mp hnext).1 y hy)
        rw [triangle_of_fall ⟨hlow, hx⟩, hrest, heights, List.sum_cons,
          List.sum_eq_zero (heights_of_lt hbeyond), triangle_of_rise ⟨hlow, hx⟩, add_zero,
          ← add_div, sub_add_sub_cancel, div_self hpos.ne']
      · rw [List.getLast?_cons_cons] at hlast
        rw [triangle_of_outside (fun h ↦ hx (h.2.trans_le ?_)) fun h ↦ hx h.2, zero_add]
        · exact ih hsorted rfl hlast (not_lt.mp hx)
        · exact (List.pairwise_cons.mp hsorted).1 d (by simp)

end Neighbours

end BeatNet.Library.Triangles
