import BeatNet.StateSpace
import BeatNet.Numpy

namespace BeatNet

open Numpy

structure Activation where
  beat : ℚ
  downbeat : ℚ
  beat_nonneg : 0 ≤ beat
  downbeat_nonneg : 0 ≤ downbeat
  deriving DecidableEq

def silence : Activation := ⟨0, 0, le_rfl, le_rfl⟩

/-- The border models point every state to a density column; the smooth model
has two rows of weights. -/
inductive Pointers
  | border (columns : List ℕ)
  | smooth (first second : List ℚ)

def Pointers.Fit (st : BarStateSpace) : Pointers → Prop
  | .border columns => columns.length = st.numStates
  | .smooth first second =>
    first.length = st.numStates ∧ second.length = st.numStates ∧ ∀ x ∈ first, 0 ≤ x

structure BDObservationModel (st : BarStateSpace) where
  pointers : Pointers
  fit : pointers.Fit st

variable {st : BarStateSpace}

def floorDensity (v : ℚ) : ℚ := if v < 5 / 1000 then 3 / 100 else v

def beatDensities (observation : ℚ) (om : BDObservationModel st) : List ℚ :=
  match om.pointers with
  | .border columns =>
    columns.map fun c ↦ if c = 2 then observation else if c = 0 then 3 / 100 else 0
  | .smooth first _ => first.map fun p ↦ floorDensity (p * observation)

def broadcastMul (a b : List ℚ) : Except PyError (List ℚ) :=
  if a.length = b.length then .ok (List.zipWith (· * ·) a b)
  else if a.length = 1 then .ok (b.map fun y ↦ a.headD 0 * y)
  else if b.length = 1 then .ok (a.map fun x ↦ x * b.headD 0)
  else .error .valueError

/-- In the smooth model the two observations are multiplied with the row of
weights as one array of length two. -/
def downDensities (observations : Activation) (om : BDObservationModel st) :
    Except PyError (List ℚ) :=
  match om.pointers with
  | .border columns =>
    .ok <| columns.map fun c ↦
      if c = 2 then observations.downbeat else if c = 0 then observations.beat else 0
  | .smooth first _ => do
    let products ← broadcastMul first [observations.beat, observations.downbeat]
    return products.map floorDensity

theorem floorDensity_nonneg {v : ℚ} (h : 0 ≤ v) : 0 ≤ floorDensity v := by
  rw [floorDensity]
  split <;> norm_num [h]

@[simp] theorem length_beatDensities (x : ℚ) (om : BDObservationModel st) :
    (beatDensities x om).length = st.numStates := by
  have h := om.fit
  rw [beatDensities]
  cases hp : om.pointers with
  | border columns =>
    rw [hp] at h
    simpa using (show columns.length = st.numStates from h)
  | smooth first second =>
    rw [hp] at h
    simpa using h.1

theorem broadcastMul_ok {a b w : List ℚ} (h : broadcastMul a b = .ok w)
    (ha : ∀ x ∈ a, 0 ≤ x) (hb : ∀ y ∈ b, 0 ≤ y) (hb1 : 1 ≤ b.length) :
    a.length ≤ w.length ∧ ∀ v ∈ w, 0 ≤ v := by
  rw [broadcastMul] at h
  split_ifs at h with hab ha1 hb1'
  · cases h
    refine ⟨by simp [hab], fun v hv ↦ ?_⟩
    obtain ⟨i, hi, rfl⟩ := List.mem_iff_getElem.mp hv
    rw [List.getElem_zipWith]
    exact mul_nonneg (ha _ (List.getElem_mem _)) (hb _ (List.getElem_mem _))
  · cases h
    refine ⟨by simp [ha1, hb1], fun v hv ↦ ?_⟩
    obtain ⟨y, hy, rfl⟩ := List.mem_map.mp hv
    have hhead : 0 ≤ a.headD 0 := by
      cases a with
      | nil => simp
      | cons x a => exact ha x List.mem_cons_self
    exact mul_nonneg hhead (hb y hy)
  · cases h
    refine ⟨by simp, fun v hv ↦ ?_⟩
    obtain ⟨x, hx, rfl⟩ := List.mem_map.mp hv
    have hhead : 0 ≤ b.headD 0 := by
      cases b with
      | nil => simp
      | cons y b => exact hb y List.mem_cons_self
    exact mul_nonneg (ha x hx) hhead

theorem downDensities_ok {a : Activation} {om : BDObservationModel st} {w : List ℚ}
    (h : downDensities a om = .ok w) : st.numStates ≤ w.length ∧ ∀ v ∈ w, 0 ≤ v := by
  have hfit := om.fit
  have hb := a.beat_nonneg
  have hd := a.downbeat_nonneg
  rw [downDensities] at h
  cases hp : om.pointers with
  | border columns =>
    rw [hp] at h hfit
    cases h
    have hlen : columns.length = st.numStates := hfit
    refine ⟨by simp [hlen], fun v hv ↦ ?_⟩
    obtain ⟨c, _, rfl⟩ := List.mem_map.mp hv
    split_ifs
    · exact hd
    · exact hb
    · exact le_rfl
  | smooth first second =>
    rw [hp] at h hfit
    cases hw : broadcastMul first [a.beat, a.downbeat] with
    | error e => simp only [hw] at h; cases h
    | ok products =>
      simp only [hw] at h
      cases h
      have hok := broadcastMul_ok hw hfit.2.2 (by simp [hb, hd]) (by simp)
      refine ⟨by simpa [← hfit.1] using hok.1, fun v hv ↦ ?_⟩
      obtain ⟨p, hpm, rfl⟩ := List.mem_map.mp hv
      exact floorDensity_nonneg (hok.2 p hpm)

end BeatNet
