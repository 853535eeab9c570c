import BeatNet.Onnx.Regions
import Mathlib.Algebra.Order.Round
import Mathlib.Algebra.Order.Archimedean.Basic
import Mathlib.Tactic.Positivity
import Mathlib.Tactic.Ring
import Mathlib.Tactic.NormNum

namespace BeatNet.Onnx

open Library.Machines Library.Floats

variable {α σ : Type} {conv : Converter α σ} {r r₀ : Resampler α} {sr : ℚ} {bufferSize : ℤ}

def exactFrames (sr : ℚ) (bufferSize : ℤ) : ℚ := bufferSize * srBeatnet / sr

theorem srBeatnet_pos : 0 < srBeatnet := by norm_num [srBeatnet]

theorem exactFrames_nonneg (hsr : 0 < sr) (hsize : 0 < bufferSize) :
    0 ≤ exactFrames sr bufferSize := by
  have hsize' : (0 : ℚ) < bufferSize := Int.cast_pos.mpr hsize
  have hpos := srBeatnet_pos
  rw [exactFrames]
  positivity

theorem round_exactFrames_nonneg (hsr : 0 < sr) (hsize : 0 < bufferSize) :
    0 ≤ round (exactFrames sr bufferSize) := by
  rw [round_eq]
  exact Int.floor_nonneg.mpr (add_nonneg (exactFrames_nonneg hsr hsize) (by norm_num))

namespace Resampler

theorem requested_exact (hsr : 0 < sr) (hsize : 0 < bufferSize) :
    Requested .exact sr srBeatnet bufferSize (srBeatnet / sr)
      (round (exactFrames sr bufferSize)) := by
  have hnonneg := exactFrames_nonneg hsr hsize
  have hcount : frameCount .exact bufferSize (srBeatnet / sr) =
      some (toLong (bufferSize * (srBeatnet / sr) + 1 / 2)) := rfl
  refine ⟨hsize, Value.div_finite hsr.ne', ?_⟩
  rw [hcount, ← mul_div_assoc, ← exactFrames, toLong_of_nonneg (by positivity), round_eq]

theorem exists_setup [Zero α] (r₀ : Resampler α) (hsr : 0 < sr) (hsize : 0 < bufferSize) :
    ∃ r, r₀.setup .exact sr srBeatnet bufferSize = .done r ∧
      r.silence.length = (round (exactFrames sr bufferSize)).toNat ∧
      r.outputBuffer.length = (round (exactFrames sr bufferSize)).toNat := by
  have hround := round_exactFrames_nonneg hsr hsize
  exact ⟨_, (setup_accepted hsize).mpr ⟨_, _, requested_exact hsr hsize, ⟨hround, .inr rfl⟩,
    ⟨hround, .inr rfl⟩, rfl⟩, length_resize _ _, length_resize _ _⟩

end Resampler

theorem length_returned (h : r.silence.length = r.outputBuffer.length) (blocks : List (List α)) :
    (returned conv blocks r).length = blocks.length * r.outputBuffer.length := by
  rw [returned, List.length_flatten, List.map_congr_left (Resampler.length_trace_resample h blocks)]
  simp [length_trace]

theorem returned_drift [Zero α] (hsr : 0 < sr) (hsize : 0 < bufferSize)
    (h : r₀.setup .exact sr srBeatnet bufferSize = .done r) (blocks : List (List α)) :
    |((returned conv blocks r).length : ℚ) - blocks.length * exactFrames sr bufferSize| =
      blocks.length * |exactFrames sr bufferSize - round (exactFrames sr bufferSize)| := by
  obtain ⟨t, ht, hsilence, hbuffer⟩ := Resampler.exists_setup r₀ hsr hsize
  rw [h] at ht
  cases ht
  have hround := round_exactFrames_nonneg hsr hsize
  have hcast : ((round (exactFrames sr bufferSize)).toNat : ℚ) =
      round (exactFrames sr bufferSize) := by
    exact_mod_cast Int.toNat_of_nonneg hround
  rw [length_returned (hsilence.trans hbuffer.symm), hbuffer, Nat.cast_mul, hcast, ← mul_sub,
    abs_mul, Nat.abs_cast, abs_sub_comm]

theorem eq_zero_of_multiples_bounded {x d : ℚ} (hd : 0 ≤ d) (h : ∀ n : ℕ, n * d < x) : d = 0 := by
  by_contra hne
  obtain ⟨n, hn⟩ := exists_nat_gt (x / d)
  have hpos : 0 < d := lt_of_le_of_ne hd (Ne.symm hne)
  rw [div_lt_iff₀ hpos] at hn
  exact absurd (h n) (not_lt.mpr hn.le)

/-- The stream stays within one sample of its exact length for every number of
blocks exactly when a block becomes a whole number of samples, and for a given
number exactly when the fractions left over have not yet added up to one. -/
theorem time_base_drift [Zero α] (hsr : 0 < sr) (hsize : 0 < bufferSize)
    (h : r₀.setup .exact sr srBeatnet bufferSize = .done r) :
    ((∀ blocks : List (List α), (∀ block ∈ blocks, block.length = bufferSize) →
        |((returned conv blocks r).length : ℚ) -
          blocks.length * exactFrames sr bufferSize| < 1) ↔
      ∃ k : ℤ, exactFrames sr bufferSize = k) ∧
    ∀ blocks : List (List α), (∀ block ∈ blocks, block.length = bufferSize) →
      (|((returned conv blocks r).length : ℚ) - blocks.length * exactFrames sr bufferSize| < 1 ↔
        blocks.length * |exactFrames sr bufferSize - round (exactFrames sr bufferSize)| < 1) := by
  refine ⟨?_, fun blocks _ ↦ by rw [returned_drift hsr hsize h]⟩
  apply Iff.intro
  · intro hall
    have hbounded : ∀ n : ℕ,
        n * |exactFrames sr bufferSize - round (exactFrames sr bufferSize)| < 1 := by
      intro n
      have hn := hall (List.replicate n (List.replicate bufferSize.toNat 0)) (by
        intro block hblock
        rw [List.eq_of_mem_replicate hblock, List.length_replicate, Int.toNat_of_nonneg hsize.le])
      rwa [returned_drift hsr hsize h, List.length_replicate] at hn
    have hzero := eq_zero_of_multiples_bounded (abs_nonneg _) hbounded
    exact ⟨_, sub_eq_zero.mp (abs_eq_zero.mp hzero)⟩
  · intro hint blocks _
    obtain ⟨k, hk⟩ := hint
    rw [returned_drift hsr hsize h, hk]
    simp

theorem time_base_drift_half_rate :
    |((returned (α := ℕ) copying [[1, 2], [3, 4], [5, 6]] ⟨1 / 2, 2, 1, 2, [0], [0]⟩).length : ℚ) -
      3 * exactFrames 44100 2| < 1 :=
  (time_base_drift (by norm_num) (by norm_num)
    (show (unset : Resampler ℕ).setup .exact (44100 : ℚ) srBeatnet 2 = .done _ by decide +kernel)).1.mpr
    ⟨1, by norm_num [exactFrames, srBeatnet]⟩ [[1, 2], [3, 4], [5, 6]] (by decide)

/-- At 96000 Hz, five blocks of 256 samples become one sample more than they should. -/
theorem time_base_drifts :
    ¬ ∀ (sr : ℚ) (bufferSize : ℤ), 0 < sr → 0 < bufferSize →
      ∀ r : Resampler ℕ, unset.setup .exact sr srBeatnet bufferSize = .done r →
        ∀ blocks : List (List ℕ), (∀ block ∈ blocks, block.length = bufferSize) →
          |((returned copying blocks r).length : ℚ) -
            blocks.length * exactFrames sr bufferSize| < 1 := by
  intro h
  have hsr : (0 : ℚ) < 96000 := by norm_num
  have hsize : (0 : ℤ) < 256 := by norm_num
  obtain ⟨r, hr, _⟩ := Resampler.exists_setup (unset : Resampler ℕ) hsr hsize
  have hlt := h 96000 256 hsr hsize r hr (List.replicate 5 (List.replicate 256 0)) (by
    intro block hblock
    rw [List.eq_of_mem_replicate hblock, List.length_replicate]
    rfl)
  rw [returned_drift hsr hsize hr, List.length_replicate] at hlt
  revert hlt
  norm_num [exactFrames, srBeatnet, round_eq]

end BeatNet.Onnx
