import BeatNet.Resample
import BeatNet.Library.Strata

namespace BeatNet

open Numpy Library.Effects Library.PrefixSums Library.Strata

variable {G α : Type} {weights r U : List ℚ} {i j : ℕ} {u : ℚ}

/-- `cumsum_weights[i - 1]`: what the normalised weights before a place add up to. -/
def cdf (weights : List ℚ) (i : ℕ) : ℚ := (weights.take i).sum / weights.sum

def cumsumWeights (weights : List ℚ) : List ℚ := cumsum (weights.map (· / weights.sum))

theorem cumsumWeights_getElem? (hi : i < weights.length) :
    (cumsumWeights weights)[i]? = some (cdf weights (i + 1)) := by
  rw [cumsumWeights, cumsum, prefixSums_getElem? (by rwa [List.length_map]), cdf, ← List.map_take]
  simp only [div_eq_mul_inv, List.sum_map_mul_right, List.map_id']

theorem pairwise_cumsumWeights (hnonneg : ∀ x ∈ weights, 0 ≤ x) :
    (cumsumWeights weights).Pairwise (· ≤ ·) := by
  refine pairwise_prefixSums fun y hy ↦ ?_
  obtain ⟨x, hx, rfl⟩ := List.mem_map.mp hy
  exact div_nonneg (hnonneg x hx) (List.sum_nonneg hnonneg)

theorem places_eq_map (hsum : 0 < weights.sum) (U : List ℚ) :
    places weights U = U.map (insertionPoint (cumsumWeights weights)) := if_neg hsum.ne'

theorem ne_nil_of_sum_pos (hsum : 0 < weights.sum) : weights ≠ [] := by
  rintro rfl
  exact lt_irrefl 0 hsum

theorem cdf_zero : cdf weights 0 = 0 := zero_div _

theorem cdf_nonneg (hnonneg : ∀ x ∈ weights, 0 ≤ x) (i : ℕ) : 0 ≤ cdf weights i :=
  div_nonneg (List.sum_nonneg fun x hx ↦ hnonneg x (List.mem_of_mem_take hx))
    (List.sum_nonneg hnonneg)

theorem cdf_succ {w : ℚ} (hw : weights[i]? = some w) :
    cdf weights (i + 1) = cdf weights i + w / weights.sum := by
  rw [cdf, cdf, List.take_add_one, hw, List.sum_append, ← add_div]
  simp

theorem cdf_le_one (hnonneg : ∀ x ∈ weights, 0 ≤ x) (hsum : 0 < weights.sum) (i : ℕ) :
    cdf weights i ≤ 1 := by
  have hsplit := List.sum_take_add_sum_drop weights i
  have hrest : 0 ≤ (weights.drop i).sum :=
    List.sum_nonneg fun x hx ↦ hnonneg x (List.mem_of_mem_drop hx)
  rw [cdf, div_le_one hsum]
  linarith

theorem positions_getElem? (hu : (positions r)[j]? = some u) :
    ∃ x, r[j]? = some x ∧ u = x + j * (1 / r.length) := by
  rw [positions, List.getElem?_map, List.getElem?_zipIdx] at hu
  cases hx : r[j]? with
  | none =>
    rw [hx] at hu
    cases hu
  | some x =>
    rw [hx] at hu
    cases hu
    exact ⟨x, rfl, by simp⟩

theorem stratified_positions (hdraw : ∀ x ∈ r, 0 ≤ x ∧ x < 1 / r.length) :
    Stratified (positions r) := by
  intro j u hu
  obtain ⟨x, hx, rfl⟩ := positions_getElem? hu
  obtain ⟨hlow, hhigh⟩ := hdraw x (List.mem_of_getElem? hx)
  have hlen : (0 : ℚ) < r.length := by
    have hj := (List.getElem?_eq_some_iff.mp hx).1
    exact_mod_cast (by omega : 0 < r.length)
  have hscale : (r.length : ℚ) * (x + j * (1 / r.length)) = r.length * x + j := by
    field_simp
  rw [lt_div_iff₀ hlen] at hhigh
  rw [length_positions, hscale]
  constructor <;> nlinarith

/-- The particles that an inverse distribution function finds at the points `U`. -/
structure InverseCdf (weights U : List ℚ) (chosen : List ℕ) : Prop where
  length : chosen.length = U.length
  in_range : ∀ i ∈ chosen, i < weights.length
  sorted : chosen.Pairwise (· ≤ ·)
  between : ∀ (j i : ℕ) (u : ℚ), chosen[j]? = some i → U[j]? = some u →
    (i = 0 ∨ cdf weights i < u) ∧ u ≤ cdf weights (i + 1)
  weightless : ∀ (j i : ℕ) (u : ℚ), chosen[j]? = some i → U[j]? = some u →
    weights[i]? = some 0 → u = 0
  copies : ∀ (i : ℕ) (w : ℚ), weights[i]? = some w →
    |(chosen.count i : ℚ) - U.length * w / weights.sum| < 2

section Places

variable (hnonneg : ∀ x ∈ weights, 0 ≤ x)
include hnonneg

theorem insertionPoint_le_iff_le_cdf (hi : i < weights.length) :
    insertionPoint (cumsumWeights weights) u ≤ i ↔ u ≤ cdf weights (i + 1) :=
  insertionPoint_le_iff (pairwise_cumsumWeights hnonneg) (cumsumWeights_getElem? hi)

theorem insertionPoint_between (hi : i < weights.length)
    (h : insertionPoint (cumsumWeights weights) u = i) :
    (i = 0 ∨ cdf weights i < u) ∧ u ≤ cdf weights (i + 1) := by
  refine ⟨?_, (insertionPoint_le_iff_le_cdf hnonneg hi).mp h.le⟩
  cases i with
  | zero => exact .inl rfl
  | succ i =>
    right
    rw [← not_le, ← insertionPoint_le_iff_le_cdf hnonneg (by omega), h]
    omega

variable (hsum : 0 < weights.sum)
include hsum

theorem countP_places (hi : i < weights.length) (U : List ℚ) :
    (places weights U).countP (· < i + 1) = U.countP (· ≤ cdf weights (i + 1)) := by
  rw [places_eq_map hsum, List.countP_map]
  apply List.countP_congr
  intro u _
  simp only [Function.comp_apply, decide_eq_true_eq, Nat.lt_succ_iff,
    insertionPoint_le_iff_le_cdf hnonneg hi]

theorem countP_places_bounds (hU : Stratified U) (hi : i ≤ weights.length) :
    ((places weights U).countP (· < i) : ℚ) ≤ U.length * cdf weights i + 1 ∧
      U.length * cdf weights i < (places weights U).countP (· < i) + 1 := by
  cases i with
  | zero => simp [cdf_zero]
  | succ i =>
    rw [countP_places hnonneg hsum hi]
    exact ⟨hU.countP_le (cdf_nonneg hnonneg _), hU.lt_countP (cdf_le_one hnonneg hsum _)⟩

theorem count_places {w : ℚ} (hU : Stratified U) (hw : weights[i]? = some w) :
    |((places weights U).count i : ℚ) - U.length * w / weights.sum| < 2 := by
  have hi := (List.getElem?_eq_some_iff.mp hw).1
  obtain ⟨hlow, hlow'⟩ := countP_places_bounds hnonneg hsum hU hi.le
  obtain ⟨hhigh, hhigh'⟩ := countP_places_bounds hnonneg hsum hU (Nat.succ_le_of_lt hi)
  rw [Nat.succ_eq_add_one, cdf_succ hw, countP_lt_succ, mul_add, Nat.cast_add] at hhigh hhigh'
  rw [abs_sub_lt_iff, mul_div_assoc]
  constructor <;> linarith

theorem inverseCdf_places (hdraw : ∀ x ∈ r, 0 ≤ x ∧ x < 1 / r.length) :
    InverseCdf weights (positions r) (places weights (positions r)) := by
  have hstrat := stratified_positions hdraw
  have hrange := places_lt (ne_nil_of_sum_pos hsum) (positions_lt_one fun x hx ↦ (hdraw x hx).2)
  have hbetween : ∀ (j i : ℕ) (u : ℚ), (places weights (positions r))[j]? = some i →
      (positions r)[j]? = some u → (i = 0 ∨ cdf weights i < u) ∧ u ≤ cdf weights (i + 1) := by
    intro j i u hi hu
    have hlt := hrange i (List.mem_of_getElem? hi)
    rw [places_eq_map hsum, List.getElem?_map, hu, Option.map_some, Option.some.injEq] at hi
    exact insertionPoint_between hnonneg hlt hi
  refine ⟨length_places _ _, hrange, ?_, hbetween, ?_, fun i w ↦ count_places hnonneg hsum hstrat⟩
  · rw [places_eq_map hsum, List.pairwise_map]
    exact hstrat.pairwise.imp fun h ↦ insertionPoint_mono _ h
  · intro j i u hi hu hzero
    obtain ⟨hlow, hhigh⟩ := hbetween j i u hi hu
    have hnext : cdf weights (i + 1) = cdf weights i := by
      rw [cdf_succ hzero, zero_div, add_zero]
    rw [hnext] at hhigh
    obtain rfl := hlow.resolve_right (not_lt.mpr hhigh)
    have hpos := (hstrat j u hu).1
    obtain ⟨x, hx, rfl⟩ := positions_getElem? hu
    have hdraw := (hdraw x (List.mem_of_getElem? hx)).1
    have hshift : (0 : ℚ) ≤ j * (1 / r.length) := by positivity
    rw [cdf_zero] at hhigh
    linarith

end Places

theorem universalResample_run {rng : Rng G} {particles : List α} (hne : particles ≠ []) (g : G) :
    (universalResample rng particles weights).run g =
      (resampleAt particles weights (rng.uniform (1 / particles.length) particles.length g).1).map
        fun out ↦ (out, (rng.uniform (1 / particles.length) particles.length g).2) := by
  have hlen : particles.length ≠ 0 := by simpa using hne
  rw [universalResample, if_neg hlen]
  exact run_bind_lift rfl

/-- On every draw, `universal_resample` inverts the distribution function of the
weights at the points of the slots. -/
theorem inverse_cdf_resampling {particles : List α} (hne : particles ≠ [])
    (hw : weights.length = particles.length) (hnonneg : ∀ x ∈ weights, 0 ≤ x)
    (hsum : 0 < weights.sum) (hlen : r.length = particles.length)
    (hdraw : ∀ x ∈ r, 0 ≤ x ∧ x < 1 / particles.length) :
    InverseCdf weights (positions r) (places weights (positions r)) ∧
      ∃ out, resampleAt particles weights r = .ok out ∧ out.length = particles.length ∧
        (∀ j i : ℕ, (places weights (positions r))[j]? = some i → out[j]? = particles[i]?) ∧
        ∀ (G : Type) (rng : Rng G) (g g' : G),
          rng.uniform (1 / particles.length) particles.length g = (r, g') →
            (universalResample rng particles weights).run g = .ok (out, g') := by
  obtain ⟨out, hout⟩ := resampleAt_ok hne hw hlen fun x hx ↦ (hdraw x hx).2
  rw [← hlen] at hdraw
  refine ⟨inverseCdf_places hnonneg hsum hdraw, out, hout, (resampleAt_length hout).trans hlen,
    fun j i ↦ take_getElem? hout, fun G rng g g' hr ↦ ?_⟩
  rw [universalResample_run hne, hr, hout]
  rfl

theorem inverse_cdf_resampling_weightless :
    InverseCdf [1, 0, 1] (positions [0, 1 / 4, 1 / 6]) [0, 2, 2] ∧
      (universalResample (Rng.drawing [0, 1 / 4, 1 / 6]) [7, 8, 9] [1, 0, 1]).run () =
        .ok ([7, 9, 9], ()) := by
  have hplaces : places [1, 0, 1] (positions [0, 1 / 4, 1 / 6]) = [0, 2, 2] := by decide +kernel
  have hdraw : ∀ x ∈ ([0, 1 / 4, 1 / 6] : List ℚ), 0 ≤ x ∧ x < 1 / (3 : ℕ) := by decide +kernel
  have hvalue : resampleAt [7, 8, 9] [1, 0, 1] [0, 1 / 4, 1 / 6] = .ok [7, 9, 9] := by
    decide +kernel
  obtain ⟨hinverse, out, hout, _, _, hrun⟩ := inverse_cdf_resampling
    (show ([7, 8, 9] : List ℕ) ≠ [] by decide)
    (show ([1, 0, 1] : List ℚ).length = 3 from rfl) (by simp) (by norm_num)
    (show ([0, 1 / 4, 1 / 6] : List ℚ).length = 3 from rfl) hdraw
  rw [hplaces] at hinverse
  obtain rfl := Except.ok.inj (hvalue.symm.trans hout)
  exact ⟨hinverse, hrun Unit _ () () (Rng.uniform_drawing hdraw)⟩

end BeatNet
