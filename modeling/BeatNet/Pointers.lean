import BeatNet.Library.Effects
import BeatNet.ObservationModel

namespace BeatNet

open Numpy Library.Blocks Library.Effects

/-- The documented values of `observation_lambda`, the width of a Gaussian being other than zero. -/
inductive ObservationLambda
  | B (observationLambda : ℤ)
  | N (observationLambda : ℤ)
  | G (observationLambda : ℚ) (ne_zero : observationLambda ≠ 0)

def ObservationLambda.Border : ObservationLambda → Prop
  | B _ => True
  | N _ => True
  | G _ _ => False

def assignAll (idx : List ℕ) (column : ℕ) (pointers : List ℕ) : Except PyError (List ℕ) :=
  if ∀ i ∈ idx, i < pointers.length then
    .ok (idx.foldl (fun pointers i ↦ pointers.set i column) pointers)
  else .error .indexError

section Kinds

variable (exp : ℚ → ℚ) (st : BarStateSpace)

def BarStateSpace.statePositions : List ℚ :=
  st.intervals.flatMap fun n ↦ (List.range n).map fun (j : ℕ) ↦ (j / n : ℚ)

def gaussian (x mu sig : ℚ) : ℚ := exp (-((x - mu) / sig) ^ 2 / 2)

def borderPointers (observationLambda : ℤ) : Except PyError (List ℕ) :=
  if observationLambda = 0 then .error .zeroDivisionError
  else
    let border : ℚ := 1 / observationLambda
    .ok <| st.statePositions.map fun x ↦
      if x < border then 2 else if Int.fract x < border then 1 else 0

/-- There is one beat, so no state is given column 1. -/
def numberPointers (observationLambda : ℤ) : Except PyError (List ℕ) :=
  (List.range observationLambda.toNat).foldlM
    (fun pointers i ↦ assignAll (st.firsts.map (· + i)) 2 pointers)
    (List.replicate st.numStates 0)

/-- The first row has both ends of the beat, and no beat is left for the second one. -/
def gaussianPointers (sig : ℚ) : List ℚ × List ℚ :=
  (st.statePositions.map fun x ↦ gaussian exp x 0 sig + gaussian exp x 1 sig,
    List.replicate st.numStates 0)

def pointersOf : ObservationLambda → Except PyError Pointers
  | .B observationLambda => do
    let columns ← borderPointers st observationLambda
    return .border columns
  | .N observationLambda => do
    let columns ← numberPointers st observationLambda
    return .border columns
  | .G sig _ =>
    let rows := gaussianPointers exp st sig
    .ok (.smooth rows.1 rows.2)

end Kinds

section Fit

variable {exp : ℚ → ℚ} {st : BarStateSpace} {observationLambda : ObservationLambda}
  {pointers : Pointers} {idx columns columns' : List ℕ} {column : ℕ}

theorem length_statePositions : st.statePositions.length = st.numStates := by
  simp [BarStateSpace.statePositions, BarStateSpace.numStates, List.length_flatMap]

theorem statePositions_bounds {x : ℚ} (hx : x ∈ st.statePositions) : 0 ≤ x ∧ x < 1 := by
  obtain ⟨n, hn, hx⟩ := List.mem_flatMap.mp hx
  obtain ⟨j, hj, rfl⟩ := List.mem_map.mp hx
  have hpos : (0 : ℚ) < n := Nat.cast_pos.mpr (st.intervals_pos n hn)
  exact ⟨by positivity, (div_lt_one hpos).mpr (Nat.cast_lt.mpr (List.mem_range.mp hj))⟩

theorem length_foldl_set (idx columns : List ℕ) :
    (idx.foldl (fun columns i ↦ columns.set i column) columns).length = columns.length := by
  induction idx generalizing columns with
  | nil => rfl
  | cons i idx ih => rw [List.foldl_cons, ih, List.length_set]

theorem assignAll_ok : assignAll idx column columns = .ok columns' ↔
    (∀ i ∈ idx, i < columns.length) ∧
      columns' = idx.foldl (fun columns i ↦ columns.set i column) columns := by
  rw [assignAll]
  by_cases h : ∀ i ∈ idx, i < columns.length
  · rw [if_pos h, Except.ok.injEq, eq_comm]
    exact (and_iff_right h).symm
  · rw [if_neg h]
    exact iff_of_false (by simp) fun hok ↦ h hok.1

theorem length_assignAll (h : assignAll idx column columns = .ok columns') :
    columns'.length = columns.length := by
  rw [(assignAll_ok.mp h).2, length_foldl_set]

theorem borderPointers_ok {n : ℤ} : borderPointers st n = .ok columns ↔
    n ≠ 0 ∧ columns = st.statePositions.map fun x ↦ if x < 1 / (n : ℚ) then 2 else 0 := by
  have hcolumns : (st.statePositions.map fun x ↦
      if x < 1 / (n : ℚ) then 2 else if Int.fract x < 1 / (n : ℚ) then 1 else 0) =
        st.statePositions.map fun x ↦ if x < 1 / (n : ℚ) then 2 else 0 := by
    apply List.map_congr_left
    intro x hx
    rw [Int.fract_eq_self.mpr (statePositions_bounds hx)]
    split_ifs
    · rfl
    · rfl
  rw [borderPointers]
  by_cases hn : n = 0
  · simp [hn]
  · rw [if_neg hn]
    simp only [hcolumns, Except.ok.injEq]
    rw [eq_comm]
    exact (and_iff_right hn).symm

theorem length_borderPointers {n : ℤ} (h : borderPointers st n = .ok columns) :
    columns.length = st.numStates := by
  rw [(borderPointers_ok.mp h).2, List.length_map, length_statePositions]

theorem length_numberPointers {n : ℤ} (h : numberPointers st n = .ok columns) :
    columns.length = st.numStates := by
  rw [numberPointers] at h
  have hkept : ∀ (steps : List ℕ) (columns₀ : List ℕ),
      steps.foldlM (fun pointers i ↦ assignAll (st.firsts.map (· + i)) 2 pointers) columns₀ =
        .ok columns → columns.length = columns₀.length := by
    intro steps
    induction steps with
    | nil =>
      intro columns₀ h
      cases h
      rfl
    | cons i steps ih =>
      intro columns₀ h
      obtain ⟨columns₁, hassign, hrest⟩ := except_bind_ok.mp h
      rw [ih columns₁ hrest, length_assignAll hassign]
  rw [hkept _ _ h, List.length_replicate]

theorem border_ok {x : Except PyError (List ℕ)} :
    (do let columns ← x; return Pointers.border columns) = .ok pointers ↔
      ∃ columns, x = .ok columns ∧ pointers = .border columns := by
  apply Iff.intro
  · intro h
    obtain ⟨columns, hcolumns, hpure⟩ := except_bind_ok.mp h
    exact ⟨columns, hcolumns, (Except.ok.inj hpure).symm⟩
  · rintro ⟨columns, rfl, rfl⟩
    rfl

theorem fit_pointersOf (hexp : ∀ x, 0 ≤ exp x)
    (h : pointersOf exp st observationLambda = .ok pointers) : pointers.Fit st := by
  cases observationLambda with
  | B n =>
    obtain ⟨columns, hcolumns, rfl⟩ := border_ok.mp h
    exact length_borderPointers hcolumns
  | N n =>
    obtain ⟨columns, hcolumns, rfl⟩ := border_ok.mp h
    exact length_numberPointers hcolumns
  | G sig _ =>
    cases h
    refine ⟨?_, List.length_replicate, fun x hx ↦ ?_⟩
    · rw [gaussianPointers, List.length_map, length_statePositions]
    · obtain ⟨y, _, rfl⟩ := List.mem_map.mp hx
      exact add_nonneg (hexp _) (hexp _)

def BDObservationModel.new (exp : ℚ → ℚ) (hexp : ∀ x, 0 ≤ exp x) (st : BarStateSpace)
    (observationLambda : ObservationLambda) : Except PyError (BDObservationModel st) :=
  match h : pointersOf exp st observationLambda with
  | .ok pointers => .ok ⟨pointers, fit_pointersOf hexp h⟩
  | .error e => .error e

theorem new_ok {hexp : ∀ x, 0 ≤ exp x} {om : BDObservationModel st} :
    BDObservationModel.new exp hexp st observationLambda = .ok om ↔
      pointersOf exp st observationLambda = .ok om.pointers := by
  rw [BDObservationModel.new]
  split
  · rename_i pointers hpointers
    apply Iff.intro
    · intro h
      cases h
      exact hpointers
    · intro h
      cases om
      cases hpointers.symm.trans h
      rfl
  · rename_i e hpointers
    apply Iff.intro
    · intro h
      cases h
    · intro h
      cases hpointers.symm.trans h

end Fit

section Densities

variable {exp : ℚ → ℚ} {st : BarStateSpace} {observationLambda : ObservationLambda}
  {om : BDObservationModel st} {hexp : ∀ x, 0 ≤ exp x} {a : Activation} {columns : List ℕ}
  {first second obs2 : List ℚ}

theorem border_of_new (hnew : BDObservationModel.new exp hexp st observationLambda = .ok om)
    (hborder : observationLambda.Border) : ∃ columns, om.pointers = .border columns := by
  have hpointers := new_ok.mp hnew
  cases observationLambda with
  | B n =>
    obtain ⟨columns, _, hborder⟩ := border_ok.mp hpointers
    exact ⟨columns, hborder⟩
  | N n =>
    obtain ⟨columns, _, hborder⟩ := border_ok.mp hpointers
    exact ⟨columns, hborder⟩
  | G sig _ => exact hborder.elim

theorem smooth_of_new (hnew : BDObservationModel.new exp hexp st observationLambda = .ok om)
    (hborder : ¬ observationLambda.Border) :
    ∃ first second, om.pointers = .smooth first second := by
  have hpointers := new_ok.mp hnew
  cases observationLambda with
  | B n => exact absurd trivial hborder
  | N n => exact absurd trivial hborder
  | G sig _ => exact ⟨_, _, (Except.ok.inj hpointers).symm⟩

theorem downDensities_border (hom : om.pointers = .border columns) (a : Activation) :
    ∃ obs2, downDensities a om = .ok obs2 ∧ obs2.length = st.numStates := by
  have hlen : columns.length = st.numStates := by
    have hfit := om.fit
    rw [hom] at hfit
    exact hfit
  rw [downDensities, hom]
  exact ⟨_, rfl, by rw [List.length_map, hlen]⟩

theorem downDensities_smooth (hom : om.pointers = .smooth first second) (a : Activation) :
    (∃ obs2, downDensities a om = .ok obs2 ∧ obs2.length = st.numStates) ↔ st.numStates = 2 := by
  have hlen : first.length = st.numStates := by
    have hfit := om.fit
    rw [hom] at hfit
    exact hfit.1
  rw [downDensities, hom, ← hlen]
  apply Iff.intro
  · rintro ⟨obs2, hobs, hsize⟩
    obtain ⟨products, hproducts, hpure⟩ := except_bind_ok.mp hobs
    cases hpure
    rw [List.length_map] at hsize
    rw [broadcastMul] at hproducts
    split_ifs at hproducts with htwo hone hlast
    · exact htwo
    · cases hproducts
      rw [hone] at hsize
      exact absurd hsize (by simp)
    · exact absurd hlast (by simp)
  · intro htwo
    have hproducts : broadcastMul first [a.beat, a.downbeat] =
        .ok (List.zipWith (· * ·) first [a.beat, a.downbeat]) := if_pos htwo
    simp only [hproducts]
    exact ⟨_, rfl, by simp [htwo]⟩

/-- The weights of the downbeat particles are defined for the border models, and for the Gaussian
one on two states only. -/
theorem downbeat_weighting
    (hnew : BDObservationModel.new exp hexp st observationLambda = .ok om) :
    (∀ a, ∃ obs2, downDensities a om = .ok obs2 ∧ obs2.length = st.numStates ∧
      (∀ v ∈ obs2, 0 ≤ v) ∧ ∀ downParticles : List ℕ, (∀ p ∈ downParticles, p < st.numStates) →
        ∃ weights, take obs2 downParticles = .ok weights) ↔
      observationLambda.Border ∨ st.numStates = 2 := by
  have hcomplete : ∀ a, (∃ obs2, downDensities a om = .ok obs2 ∧ obs2.length = st.numStates) →
      ∃ obs2, downDensities a om = .ok obs2 ∧ obs2.length = st.numStates ∧ (∀ v ∈ obs2, 0 ≤ v) ∧
        ∀ downParticles : List ℕ, (∀ p ∈ downParticles, p < st.numStates) →
          ∃ weights, take obs2 downParticles = .ok weights := by
    rintro a ⟨obs2, hobs, hlen⟩
    exact ⟨obs2, hobs, hlen, (downDensities_ok hobs).2, fun downParticles hlt ↦
      take_of_lt fun p hp ↦ hlen ▸ hlt p hp⟩
  by_cases hborder : observationLambda.Border
  · obtain ⟨columns, hcolumns⟩ := border_of_new hnew hborder
    exact iff_of_true (fun a ↦ hcomplete a (downDensities_border hcolumns a)) (.inl hborder)
  · obtain ⟨first, second, hrows⟩ := smooth_of_new hnew hborder
    apply Iff.intro
    · intro h
      obtain ⟨obs2, hobs, hlen, _⟩ := h silence
      exact .inr ((downDensities_smooth hrows silence).mp ⟨obs2, hobs, hlen⟩)
    · intro h a
      exact hcomplete a ((downDensities_smooth hrows a).mpr (h.resolve_left hborder))

def steepExp (x : ℚ) : ℚ := if x = 0 then 1 else 0

theorem steepExp_nonneg (x : ℚ) : 0 ≤ steepExp x := by
  rw [steepExp]
  split_ifs
  · exact zero_le_one
  · exact le_rfl

theorem pointersOf_B {n : ℤ} (h : borderPointers st n = .ok columns) :
    pointersOf exp st (.B n) = .ok (.border columns) := border_ok.mpr ⟨columns, h, rfl⟩

def barsOfTwoAndFour : BarStateSpace := ⟨[2, 4], by decide⟩

def barsModel : BDObservationModel barsOfTwoAndFour := ⟨.border [2, 0, 2, 0, 0, 0], rfl⟩

theorem new_barsModel :
    BDObservationModel.new steepExp steepExp_nonneg barsOfTwoAndFour (.B 56) = .ok barsModel :=
  new_ok.mpr (pointersOf_B (by decide +kernel))

theorem downbeat_weighting_border :
    ∃ obs2, downDensities silence barsModel = .ok obs2 ∧ obs2.length = 6 := by
  obtain ⟨obs2, hobs, hlen, _⟩ := (downbeat_weighting new_barsModel).mpr (.inl trivial) silence
  exact ⟨obs2, hobs, hlen⟩

/-- For bars of two to four beats the nine states do not go with the two entries of a frame. -/
theorem gaussian_weights_undefined :
    ¬ ∀ (exp : ℚ → ℚ) (hexp : ∀ x, 0 ≤ exp x) (st : BarStateSpace)
      (observationLambda : ObservationLambda) (om : BDObservationModel st),
      BDObservationModel.new exp hexp st observationLambda = .ok om →
        ∀ a, ∃ obs2, downDensities a om = .ok obs2 ∧ obs2.length = st.numStates := by
  intro h
  have hpointers : pointersOf steepExp ⟨[2, 3, 4], by decide⟩ (.G (1 / 1000) (by norm_num)) =
      .ok (.smooth _ _) := rfl
  have hweights := h steepExp steepExp_nonneg ⟨[2, 3, 4], by decide⟩ (.G (1 / 1000) (by norm_num))
    ⟨_, fit_pointersOf steepExp_nonneg hpointers⟩ (new_ok.mpr hpointers) silence
  have htwo := (downDensities_smooth rfl silence).mp hweights
  exact absurd htwo (by decide)

end Densities

end BeatNet
