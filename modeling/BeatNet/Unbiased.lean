import BeatNet.Systematic
import BeatNet.Weights
import Mathlib.Algebra.BigOperators.Fin

namespace BeatNet

open Numpy Library.Effects Library.PrefixSums Library.Strata

variable {α : Type} {weights r : List ℚ} {j i : ℕ} {x : ℚ}

def drawsBefore (weights : List ℚ) (j i : ℕ) : ℚ := within weights.length j (cdf weights i)

theorem cdf_length (hsum : 0 < weights.sum) : cdf weights weights.length = 1 := by
  rw [cdf, List.take_length, div_self hsum.ne']

section Draws

variable (hnonneg : ∀ y ∈ weights, 0 ≤ y) (hsum : 0 < weights.sum)

include hnonneg hsum in
theorem cdf_mono : Monotone (cdf weights) := by
  refine monotone_nat_of_le_succ fun i ↦ ?_
  cases hw : weights[i]? with
  | none =>
    have hi := List.getElem?_eq_none_iff.mp hw
    rw [cdf, cdf, List.take_of_length_le hi, List.take_of_length_le (hi.trans (Nat.le_succ i))]
  | some w =>
    rw [cdf_succ hw]
    exact le_add_of_nonneg_right (div_nonneg (hnonneg w (List.mem_of_getElem? hw)) hsum.le)

include hnonneg in
theorem insertionPoint_eq_iff (hi : i < weights.length) (hpos : 0 < x)
    (hlt : x < 1 / weights.length) :
    insertionPoint (cumsumWeights weights) (x + j * (1 / weights.length)) = i ↔
      x ∈ Set.Ioc (drawsBefore weights j i) (drawsBefore weights j (i + 1)) := by
  have hle : ∀ i, x ≤ drawsBefore weights j i ↔ x + j * (1 / weights.length) ≤ cdf weights i :=
    fun i ↦ le_within_iff hpos hlt
  rw [Set.mem_Ioc, hle, ← insertionPoint_le_iff_le_cdf hnonneg hi, ← not_le, hle]
  cases i with
  | zero =>
    have hzero : ¬ x + j * (1 / weights.length) ≤ cdf weights 0 := by
      rw [← hle, drawsBefore, cdf_zero, within_zero]
      exact hpos.not_ge
    rw [Nat.le_zero]
    exact (and_iff_right hzero).symm
  | succ i =>
    rw [← insertionPoint_le_iff_le_cdf hnonneg (by omega)]
    omega

/-- The draws of every slot are shared among the particles, and each of them gets the share of its
weight over all slots. -/
structure Shares (weights : List ℚ) : Prop where
  first : ∀ j, drawsBefore weights j 0 = 0
  last : ∀ j < weights.length, drawsBefore weights j weights.length = 1 / weights.length
  mono : ∀ j, Monotone (drawsBefore weights j)
  total : ∀ (i : ℕ) (w : ℚ), weights[i]? = some w →
    ∑ j ∈ Finset.range weights.length, (drawsBefore weights j (i + 1) - drawsBefore weights j i) =
      w / weights.sum

include hnonneg hsum in
theorem shares_of_sum_pos : Shares weights := by
  have hlen := List.length_pos_iff.mpr (ne_nil_of_sum_pos hsum)
  refine ⟨fun j ↦ ?_, fun j hj ↦ ?_, fun j ↦ ?_, fun i w hw ↦ ?_⟩
  · rw [drawsBefore, cdf_zero, within_zero]
  · rw [drawsBefore, cdf_length hsum, within_one hj]
  · exact (within_mono weights.length j).comp (cdf_mono hnonneg hsum)
  · have hslots : ∀ i, ∑ j ∈ Finset.range weights.length, drawsBefore weights j i =
        cdf weights i := fun i ↦
      sum_within hlen (cdf_nonneg hnonneg i) (cdf_le_one hnonneg hsum i)
    rw [Finset.sum_sub_distrib, hslots, hslots, cdf_succ hw, add_sub_cancel_left]

end Draws

/-- Both methods are unbiased: which particle a slot takes depends on which share of the draws its
own draw is in. The original one is meant for particles that are whole numbers. -/
theorem resampling_unbiased {particles : List α} (hw : weights.length = particles.length)
    (hnonneg : ∀ y ∈ weights, 0 ≤ y) (hsum : 0 < weights.sum) :
    Shares weights ∧
      (∀ r : List ℚ, r.length = particles.length →
        (∀ x ∈ r, 0 < x ∧ x < 1 / particles.length) →
        ∃ out, resampleAt particles weights r = .ok out ∧ ∀ (j i : ℕ) (x : ℚ), r[j]? = some x →
          i < particles.length →
          ((places weights (positions r))[j]? = some i ↔
            x ∈ Set.Ioc (drawsBefore weights j i) (drawsBefore weights j (i + 1))) ∧
          (x ∈ Set.Ioc (drawsBefore weights j i) (drawsBefore weights j (i + 1)) →
            out[j]? = particles[i]?)) ∧
      ∀ states : List ℤ, weights.length = states.length →
        ∀ x : ℚ, 0 < x → x < 1 / states.length →
          originalAt states weights x =
            resampleAt states weights (List.replicate states.length x) := by
  refine ⟨shares_of_sum_pos hnonneg hsum, fun r hlen hdraw ↦ ?_, fun states hstates x hpos hlt ↦
    originalAt_eq hstates hsum ⟨hpos.le, hlt⟩⟩
  have hne : particles ≠ [] := by
    rintro rfl
    exact ne_nil_of_sum_pos hsum (List.length_eq_zero_iff.mp hw)
  obtain ⟨out, hout⟩ := resampleAt_ok hne hw hlen fun x hx ↦ (hdraw x hx).2
  refine ⟨out, hout, fun j i x hx hi ↦ ?_⟩
  obtain ⟨hpos, hlt⟩ := hdraw x (List.mem_of_getElem? hx)
  have hplace : (places weights (positions r))[j]? = some i ↔
      x ∈ Set.Ioc (drawsBefore weights j i) (drawsBefore weights j (i + 1)) := by
    rw [places_positions_getElem? hsum hx, Option.some.injEq, hlen, ← hw]
    rw [← hw] at hi hlt
    exact insertionPoint_eq_iff hnonneg hi hpos hlt
  exact ⟨hplace, fun hmem ↦ take_getElem? hout (hplace.mpr hmem)⟩

/-- The second of three slots takes the first particle on draws up to 1/6, the second one on the
others. -/
theorem resampling_unbiased_halves :
    ∑ j ∈ Finset.range 3, (drawsBefore [1, 1, 0] j 2 - drawsBefore [1, 1, 0] j 1) = 1 / 2 ∧
      ∃ out, resampleAt [7, 8, 9] [1, 1, 0] [1 / 12, 1 / 4, 1 / 12] = .ok out ∧
        out[1]? = some 8 := by
  obtain ⟨hshares, hresample, _⟩ := resampling_unbiased
    (show ([1, 1, 0] : List ℚ).length = [7, 8, 9].length from rfl) (by simp) (by norm_num)
  obtain ⟨out, hout, htakes⟩ := hresample [1 / 12, 1 / 4, 1 / 12] rfl (by decide +kernel)
  have htotal := hshares.total 1 1 rfl
  refine ⟨htotal.trans (by norm_num), out, hout, (htakes 1 1 (1 / 4) rfl (by decide)).2 ?_⟩
  rw [Set.mem_Ioc]
  decide +kernel

section Posterior

variable {exp : ℚ → ℚ} {hexp : ∀ x, 0 ≤ exp x} {st : BarStateSpace} {om : BDObservationModel st}
  {particles : List ℕ}

end Posterior

end BeatNet
