import BeatNet.Random
import Mathlib.Algebra.BigOperators.Ring.List
import Mathlib.Tactic.FieldSimp

namespace BeatNet

open Numpy Library.Effects Library.PrefixSums

variable {G α : Type}

def positions (r : List ℚ) : List ℚ :=
  r.zipIdx.map fun x ↦ x.1 + x.2 * (1 / r.length)

/-- The places `np.searchsorted(np.cumsum(weights / sum(weights)), U)`. Over a
zero total the quotients are not numbers; these sort after every number, so
the place is the first one. -/
def places (weights U : List ℚ) : List ℕ :=
  if weights.sum = 0 then U.map fun _ ↦ 0
  else U.map (searchsorted (cumsum (weights.map (· / weights.sum))))

def resampleAt (particles : List α) (weights r : List ℚ) : Except PyError (List α) :=
  take particles (places weights (positions r))

def universalResample (rng : Rng G) (particles : List α) (weights : List ℚ) :
    Draw G (List α) :=
  if particles.length = 0 then throw .zeroDivisionError
  else do
    let r ← drawUniform rng (1 / particles.length) particles.length
    resampleAt particles weights r

@[simp] theorem length_positions (r : List ℚ) : (positions r).length = r.length := by
  simp [positions]

@[simp] theorem length_places (weights U : List ℚ) : (places weights U).length = U.length := by
  rw [places]
  split <;> simp

theorem positions_lt_one {r : List ℚ} (hr : ∀ x ∈ r, x < 1 / r.length) :
    ∀ u ∈ positions r, u < 1 := by
  intro u hu
  obtain ⟨⟨x, j⟩, hx, rfl⟩ := List.mem_map.mp hu
  have hj : j < r.length := List.snd_lt_of_mem_zipIdx hx
  have hxr := hr x (List.fst_mem_of_mem_zipIdx hx)
  have hJ : (0 : ℚ) < r.length := by exact_mod_cast (by omega : 0 < r.length)
  have hj1 : (j : ℚ) + 1 ≤ r.length := by exact_mod_cast hj
  have hmul : ((j : ℚ) + 1) * (1 / r.length) ≤ r.length * (1 / r.length) :=
    mul_le_mul_of_nonneg_right hj1 (by positivity)
  rw [mul_one_div_cancel hJ.ne'] at hmul
  dsimp only
  linarith

theorem places_lt {weights U : List ℚ} (hw : weights ≠ []) (hU : ∀ u ∈ U, u < 1) :
    ∀ i ∈ places weights U, i < weights.length := by
  intro i hi
  have hlen : 0 < weights.length := List.length_pos_iff.mpr hw
  rw [places] at hi
  split_ifs at hi with hs
  · obtain ⟨u, _, rfl⟩ := List.mem_map.mp hi
    exact hlen
  · obtain ⟨u, hu, rfl⟩ := List.mem_map.mp hi
    have hne : weights.map (· / weights.sum) ≠ [] := by simpa using hw
    have hone : (weights.map (· / weights.sum)).sum = 1 := by
      simp only [div_eq_mul_inv]
      rw [List.sum_map_mul_right, List.map_id', mul_inv_cancel₀ hs]
    have hmem := sum_mem_prefixSums hne
    rw [hone] at hmem
    have hlt := insertionPoint_lt hmem (hU u hu).le
    rwa [length_prefixSums, List.length_map] at hlt

theorem resampleAt_length {particles out : List α} {weights r : List ℚ}
    (h : resampleAt particles weights r = .ok out) : out.length = r.length := by
  simpa using take_length h

theorem resampleAt_mem {particles out : List α} {weights r : List ℚ}
    (h : resampleAt particles weights r = .ok out) : ∀ x ∈ out, x ∈ particles :=
  take_mem h

theorem resampleAt_ok {particles : List α} {weights r : List ℚ} (hne : particles ≠ [])
    (hw : weights.length = particles.length) (hlen : r.length = particles.length)
    (hr : ∀ x ∈ r, x < 1 / particles.length) :
    ∃ out, resampleAt particles weights r = .ok out := by
  have hwne : weights ≠ [] := by
    rintro rfl
    exact hne (List.length_eq_zero_iff.mp hw.symm)
  refine take_of_lt fun i hi ↦ ?_
  rw [← hw]
  exact places_lt hwne (positions_lt_one (by rwa [hlen])) i hi

theorem meets_universalResample {rng : Rng G} {particles : List α} {weights : List ℚ}
    {E : PyError → Prop} (hw : weights.length = particles.length)
    (hfail : E .zeroDivisionError) :
    Meets (universalResample rng particles weights)
      (fun out ↦ out.length = particles.length ∧ ∀ x ∈ out, x ∈ particles) E := by
  rw [universalResample]
  split_ifs with h0
  · exact Meets.throw hfail
  · have hne : particles ≠ [] := by simpa using h0
    have hJ : (0 : ℚ) < 1 / particles.length := by
      have hpos : (0 : ℚ) < particles.length := by exact_mod_cast Nat.pos_of_ne_zero h0
      positivity
    refine (meets_drawUniform hJ _).bind fun r hr ↦ Meets.lift ?_ ?_
    · intro out hout
      exact ⟨(resampleAt_length hout).trans hr.1, resampleAt_mem hout⟩
    · intro e he
      obtain ⟨out, hout⟩ := resampleAt_ok hne hw hr.1 fun x hx ↦ (hr.2 x hx).2
      rw [hout] at he
      cases he

end BeatNet
