import Mathlib.Algebra.BigOperators.Group.List.Basic
import Mathlib.Algebra.Order.Field.Basic
import Mathlib.Algebra.Order.BigOperators.Group.List
import Mathlib.Tactic.Linarith

namespace BeatNet.Library.Averages

variable {K : Type} [Field K] [LinearOrder K] [IsStrictOrderedRing K]

/-- Parts of a whole, or of less than that. -/
structure Portions (weights : List K) : Prop where
  nonneg : ∀ w ∈ weights, 0 ≤ w
  sum_le : weights.sum ≤ 1

variable {weights xs : List K} {high : K}

theorem sum_zipWith_bounds (hw : ∀ w ∈ weights, 0 ≤ w) (hx : ∀ x ∈ xs, 0 ≤ x ∧ x ≤ high)
    (hhigh : 0 ≤ high) : 0 ≤ (List.zipWith (· * ·) xs weights).sum ∧
      (List.zipWith (· * ·) xs weights).sum ≤ high * weights.sum := by
  induction xs generalizing weights with
  | nil => exact ⟨le_rfl, mul_nonneg hhigh (List.sum_nonneg hw)⟩
  | cons x xs ih =>
    cases weights with
    | nil => simp
    | cons w weights =>
      obtain ⟨hwhead, hwrest⟩ := List.forall_mem_cons.mp hw
      obtain ⟨hxhead, hxrest⟩ := List.forall_mem_cons.mp hx
      obtain ⟨hlow, hle⟩ := ih hwrest hxrest
      rw [List.zipWith_cons_cons, List.sum_cons, List.sum_cons, mul_add]
      exact ⟨add_nonneg (mul_nonneg hxhead.1 hwhead) hlow,
        add_le_add (mul_le_mul_of_nonneg_right hxhead.2 hwhead) hle⟩

theorem Portions.sum_zipWith (h : Portions weights) (hx : ∀ x ∈ xs, 0 ≤ x ∧ x ≤ high)
    (hhigh : 0 ≤ high) : 0 ≤ (List.zipWith (· * ·) xs weights).sum ∧
      (List.zipWith (· * ·) xs weights).sum ≤ high := by
  obtain ⟨hlow, hle⟩ := sum_zipWith_bounds h.nonneg hx hhigh
  exact ⟨hlow, hle.trans (mul_le_of_le_one_right hhigh h.sum_le)⟩

end BeatNet.Library.Averages
