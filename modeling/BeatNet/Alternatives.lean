import BeatNet.Resample

namespace BeatNet

open Numpy Library.Effects

variable {G α : Type}

def shiftedPositions (N shift : ℕ) : List ℚ :=
  (List.range N).map fun (j : ℕ) ↦ ((shift + j) / N : ℚ)

/-- The loop over both arrays. Python reads its guard `i < N & j < N` as `i < (N & j) < N`. -/
def twoPointers (N : ℕ) (positions cumulativeSum : List ℚ) (i j : ℕ) (indexes : List ℕ) :
    Except PyError (List ℕ) :=
  if i < N &&& j ∧ N &&& j < N then
    if h : i < positions.length ∧ j < cumulativeSum.length then
      if positions[i] < cumulativeSum[j] then
        twoPointers N positions cumulativeSum (i + 1) j (indexes.set i j)
      else twoPointers N positions cumulativeSum i (j + 1) indexes
    else .error .indexError
  else .ok indexes
termination_by (positions.length - i) + (cumulativeSum.length - j)

def shiftedIndexes (weights : List ℚ) (shift : ℕ) : Except PyError (List ℕ) :=
  twoPointers weights.length (shiftedPositions weights.length shift) (cumsum weights) 0 0
    (List.replicate weights.length 0)

def shiftedResample (rng : Rng G) (particles : List α) (weights : List ℚ) : Draw G (List α) :=
  if weights.length = 0 then throw .valueError
  else do
    let shift ← drawRandint rng weights.length
    let indexes ← shiftedIndexes weights shift
    take particles indexes

def systematicResample (rng : Rng G) (particles : List α) (weights : List ℚ) : Draw G (List α) :=
  shiftedResample rng particles weights

def stratifiedResample (rng : Rng G) (particles : List α) (weights : List ℚ) : Draw G (List α) :=
  shiftedResample rng particles weights

/-- What the chosen places owe to the weights. -/
structure Resampled (weights : List ℚ) (indexes : List ℕ) : Prop where
  length : indexes.length = weights.length
  weighted : ∀ i ∈ indexes, ∃ w, weights[i]? = some w ∧ 0 < w
  copies : ∀ (i : ℕ) (w : ℚ), weights[i]? = some w → ⌊weights.length * w⌋ - 1 ≤ indexes.count i

/-- The resampler returns, and the particles it returns stand at places chosen by the weights. -/
def Resamples (rng : Rng G) (g : G) (particles : List α) (weights : List ℚ)
    (resample : Draw G (List α)) : Prop :=
  ∃ indexes out g', shiftedIndexes weights (rng.randint weights.length g).1 = .ok indexes ∧
    resample.run g = .ok (out, g') ∧ out.length = particles.length ∧
      take particles indexes = .ok out ∧ Resampled weights indexes

variable {rng : Rng G} {g : G} {particles : List α} {weights : List ℚ}

theorem shiftedIndexes_eq (weights : List ℚ) (shift : ℕ) :
    shiftedIndexes weights shift = .ok (List.replicate weights.length 0) := by
  rw [shiftedIndexes, twoPointers, if_neg]
  rw [Nat.and_zero]
  exact fun h ↦ lt_irrefl 0 h.1

theorem shiftedResample_run {x : α} (hne : weights ≠ []) (hx : particles[0]? = some x) (g : G) :
    (shiftedResample rng particles weights).run g =
      .ok (List.replicate weights.length x, (rng.randint weights.length g).2) := by
  have hlen : weights.length ≠ 0 := by simpa using hne
  rw [shiftedResample, if_neg hlen]
  refine run_bind_ok.mpr ⟨_, _, rfl, ?_⟩
  rw [shiftedIndexes_eq]
  exact run_lift_ok.mpr ⟨take_replicate hx _, rfl⟩

theorem resampled_replicate_iff (hne : weights ≠ []) (hnonneg : ∀ w ∈ weights, 0 ≤ w)
    (hsum : weights.sum = 1) :
    Resampled weights (List.replicate weights.length 0) ↔
      0 < weights.headD 0 ∧ ∀ w ∈ weights.tail, weights.length * w < 2 := by
  cases weights with
  | nil => exact absurd rfl hne
  | cons v rest =>
    rw [List.headD_cons, List.tail_cons]
    apply Iff.intro
    · intro h
      refine ⟨?_, fun w hw ↦ ?_⟩
      · obtain ⟨w, hw, hpos⟩ := h.weighted 0 (by simp)
        rw [List.getElem?_cons_zero, Option.some.injEq] at hw
        exact hw ▸ hpos
      · obtain ⟨i, hi⟩ := List.getElem?_of_mem hw
        have hcopies := h.copies (i + 1) w hi
        have hnone : (List.replicate (v :: rest).length 0).count (i + 1) = 0 :=
          List.count_eq_zero.mpr fun hmem ↦ absurd (List.eq_of_mem_replicate hmem) (by omega)
        rw [hnone] at hcopies
        have hfloor : ⌊((v :: rest).length : ℚ) * w⌋ < (2 : ℤ) := by omega
        exact Int.floor_lt.mp hfloor
    · intro h
      obtain ⟨hpos, hlight⟩ := h
      have hrest : 0 ≤ rest.sum :=
        List.sum_nonneg fun w hw ↦ hnonneg w (List.mem_cons_of_mem _ hw)
      rw [List.sum_cons] at hsum
      refine ⟨List.length_replicate, fun i hi ↦ ⟨v, ?_, hpos⟩, fun i w hw ↦ ?_⟩
      · rw [List.eq_of_mem_replicate hi, List.getElem?_cons_zero]
      · cases i with
        | zero =>
          rw [List.getElem?_cons_zero, Option.some.injEq] at hw
          subst hw
          have hle : ((v :: rest).length : ℚ) * v ≤ (v :: rest).length :=
            mul_le_of_le_one_right (Nat.cast_nonneg _) (by linarith)
          have hfloor : ⌊((v :: rest).length : ℚ) * v⌋ ≤ (v :: rest).length :=
            (Int.floor_mono hle).trans_eq (Int.floor_natCast _)
          rw [List.count_replicate_self]
          omega
        | succ i =>
          rw [List.getElem?_cons_succ] at hw
          have hfloor : ⌊((v :: rest).length : ℚ) * w⌋ < 2 :=
            Int.floor_lt.mpr (hlight w (List.mem_of_getElem? hw))
          omega

theorem resamples_iff (hw : weights.length = particles.length) (hne : particles ≠ [])
    (hnonneg : ∀ w ∈ weights, 0 ≤ w) (hsum : weights.sum = 1) :
    Resamples rng g particles weights (shiftedResample rng particles weights) ↔
      0 < weights.headD 0 ∧ ∀ w ∈ weights.tail, weights.length * w < 2 := by
  have hwne : weights ≠ [] := by
    intro hnil
    rw [hnil] at hsum
    exact zero_ne_one hsum
  have hx : particles[0]? = some (particles.head hne) := by
    rw [← List.head?_eq_getElem?, List.head?_eq_some_head hne]
  have hrun : (shiftedResample rng particles weights).run g = _ := shiftedResample_run hwne hx g
  rw [← resampled_replicate_iff hwne hnonneg hsum]
  apply Iff.intro
  · intro h
    obtain ⟨indexes, out, g', hindexes, _, _, _, hresampled⟩ := h
    rw [shiftedIndexes_eq, Except.ok.injEq] at hindexes
    rwa [hindexes]
  · intro h
    exact ⟨_, _, _, shiftedIndexes_eq _ _, hrun, List.length_replicate.trans hw,
      take_replicate hx _, h⟩

/-- Both alternative resamplers return, always with copies of the first particle only. -/
theorem alternative_resampling (rng : Rng G) (g : G) (hne : particles ≠ [])
    (hw : weights.length = particles.length) (hnonneg : ∀ w ∈ weights, 0 ≤ w)
    (hsum : weights.sum = 1) :
    Resamples rng g particles weights (systematicResample rng particles weights) ∧
        Resamples rng g particles weights (stratifiedResample rng particles weights) ↔
      0 < weights.headD 0 ∧ ∀ w ∈ weights.tail, weights.length * w < 2 := by
  rw [systematicResample, stratifiedResample, and_self_iff]
  exact resamples_iff hw hne hnonneg hsum

theorem alternative_resampling_equal_weights :
    Resamples Rng.least () ([7, 8] : List ℤ) [1 / 2, 1 / 2]
      (systematicResample Rng.least [7, 8] [1 / 2, 1 / 2]) := by
  have hiff := alternative_resampling Rng.least () (show ([7, 8] : List ℤ) ≠ [] by decide)
    (show ([1 / 2, 1 / 2] : List ℚ).length = 2 from rfl) (by simp) (by norm_num)
  exact (hiff.mpr (by norm_num)).1

/-- When all weight is on the second of two particles, both functions return the first one. -/
theorem alternative_resampling_weightless :
    ¬ ∀ (particles : List ℤ) (weights : List ℚ), particles ≠ [] →
      weights.length = particles.length → (∀ w ∈ weights, 0 ≤ w) → weights.sum = 1 →
        Resamples Rng.least () particles weights
            (systematicResample Rng.least particles weights) ∧
          Resamples Rng.least () particles weights
            (stratifiedResample Rng.least particles weights) := by
  intro h
  obtain ⟨⟨indexes, out, g', hindexes, _, _, _, hresampled⟩, _⟩ :=
    h [7, 8] [0, 1] (by decide) rfl (by simp) (by norm_num)
  rw [shiftedIndexes_eq, Except.ok.injEq] at hindexes
  obtain ⟨w, hw, hpos⟩ := hresampled.weighted 0 (by rw [← hindexes]; simp)
  cases hw
  exact lt_irrefl 0 hpos

end BeatNet
