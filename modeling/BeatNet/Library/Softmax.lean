import Mathlib.Algebra.BigOperators.Field
import Mathlib.Algebra.Order.BigOperators.Ring.Finset
import Mathlib.Algebra.Order.Field.Basic
import Mathlib.Tactic.Linarith

namespace BeatNet.Library.Softmax

variable {K κ : Type} [Field K] [LinearOrder K] [Fintype κ]

/-- A positive increasing function, such as the exponential function. -/
structure Exponential (K : Type) [Field K] [LinearOrder K] where
  exp : K → K
  exp_pos : ∀ x, 0 < exp x
  exp_mono : Monotone exp

def softmax (maths : Exponential K) (x : κ → K) (k : κ) : K :=
  maths.exp (x k) / ∑ j, maths.exp (x j)

variable [IsStrictOrderedRing K] {maths : Exponential K} {x : κ → K} {bound : K}

theorem sum_exp_pos (k : κ) : 0 < ∑ j, maths.exp (x j) :=
  Finset.sum_pos (fun _ _ ↦ maths.exp_pos _) ⟨k, Finset.mem_univ k⟩

theorem softmax_pos (k : κ) : 0 < softmax maths x k := div_pos (maths.exp_pos _) (sum_exp_pos k)

theorem sum_softmax [Nonempty κ] (maths : Exponential K) (x : κ → K) :
    ∑ k, softmax maths x k = 1 := by
  obtain ⟨k⟩ := (inferInstance : Nonempty κ)
  simp only [softmax, ← Finset.sum_div]
  exact div_self (sum_exp_pos k).ne'

/-- The smallest probability that scores of a bounded size leave to an entry. -/
def share (maths : Exponential K) (κ : Type) [Fintype κ] (bound : K) : K :=
  maths.exp (-bound) / (Fintype.card κ * maths.exp bound)

theorem share_pos [Nonempty κ] : 0 < share maths κ bound :=
  div_pos (maths.exp_pos _)
    (mul_pos (Nat.cast_pos.mpr Fintype.card_pos) (maths.exp_pos _))

theorem share_le_softmax (maths : Exponential K) (h : ∀ k, |x k| ≤ bound) (k : κ) :
    share maths κ bound ≤ softmax maths x k := by
  have hnum : maths.exp (-bound) ≤ maths.exp (x k) := maths.exp_mono (abs_le.mp (h k)).1
  have hden : ∑ j, maths.exp (x j) ≤ Fintype.card κ * maths.exp bound := by
    have hle : ∀ j ∈ Finset.univ, maths.exp (x j) ≤ maths.exp bound := fun j _ ↦
      maths.exp_mono (abs_le.mp (h j)).2
    calc ∑ j, maths.exp (x j) ≤ Finset.univ.card • maths.exp bound :=
        Finset.sum_le_card_nsmul _ _ _ hle
      _ = Fintype.card κ * maths.exp bound := nsmul_eq_mul _ _
  exact div_le_div₀ (maths.exp_pos _).le hnum (sum_exp_pos k) hden

end BeatNet.Library.Softmax
