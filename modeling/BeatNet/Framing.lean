import BeatNet.Library.Windows
import BeatNet.Numpy
import Mathlib.Tactic.FieldSimp

namespace BeatNet

open Numpy Library.Windows

variable {α : Type}

/-- Frame `i` of a signal: `win` samples around the sample `i * hop`. -/
def frame (hop win : ℕ) (x : List α) (i : ℕ) : List (Option α) :=
  window x (i * hop - (win / 2 : ℕ)) win

def rounds (hop n : ℕ) : ℤ := pyRound ((n : ℚ) / hop)

/-- `audio[hop * (counter - 2):hop * counter + win]`, for counters from two on. -/
def realtimeSlice (hop win counter : ℕ) (audio : List α) : List α :=
  slice (hop * (counter - 2)) (hop * counter + win) audio

theorem pyRound_le (q : ℚ) : (pyRound q : ℚ) ≤ q + 1 / 2 := by
  have hfloor := Int.floor_le q
  unfold pyRound
  simp only
  split_ifs <;> push_cast <;> linarith

theorem pyRound_nonneg {q : ℚ} (h : 0 ≤ q) : 0 ≤ pyRound q := by
  have hfloor := Int.floor_nonneg.mpr h
  unfold pyRound
  simp only
  split_ifs <;> omega

variable {hop win n counter : ℕ}

theorem rounds_nonneg (hop n : ℕ) : 0 ≤ rounds hop n := pyRound_nonneg (by positivity)

theorem rounds_zero (n : ℕ) : rounds 0 n = 0 := by
  simp [rounds, pyRound]

theorem hop_pos (h : counter < rounds hop n) : 0 < hop := by
  by_contra hhop
  rw [Nat.eq_zero_of_not_pos hhop, rounds_zero] at h
  omega

theorem centre_lt (h : counter < rounds hop n) : counter * hop < n := by
  have hhop := hop_pos h
  have hround := pyRound_le ((n : ℚ) / hop)
  have hcount : (counter + 1 : ℚ) ≤ pyRound ((n : ℚ) / hop) := by
    exact_mod_cast Int.add_one_le_iff.mpr h
  have hq : (0 : ℚ) < hop := Nat.cast_pos.mpr hhop
  have hlt : (counter : ℚ) < n / hop := by linarith
  rw [lt_div_iff₀ hq] at hlt
  exact_mod_cast hlt

theorem frame_realtimeSlice (hc : 2 ≤ counter) (hlo : win / 2 ≤ 3 * hop) (hhi : hop ≤ win / 2)
    (x : List α) :
    frame hop win (realtimeSlice hop win counter x) 3 = frame hop win x (counter + 1) := by
  obtain ⟨k, rfl⟩ := Nat.exists_eq_add_of_le hc
  rw [frame, realtimeSlice, slice]
  rw [window_drop_take]
  · congr 1
    push_cast [Nat.add_sub_cancel_left]
    ring
  · push_cast
    omega
  · rw [Nat.add_sub_cancel_left]
    push_cast
    have hmul : (hop : ℤ) * (2 + k) = hop * k + 2 * hop := by ring
    omega

/-- In the coordinates of the audio, the last frame of the slice for a counter
holds the samples of the frame of that number only if frames hold no samples. -/
theorem realtime_frame_iff (hc : 2 ≤ counter) (h : counter < rounds hop n) :
    frame hop win (realtimeSlice hop win counter (List.range n)) 3 =
      frame hop win (List.range n) counter ↔ win = 0 := by
  apply Iff.intro
  · intro heq
    by_contra hwin
    have hhop := hop_pos h
    have hright : sample (List.range n) ((counter : ℤ) * hop) = some (counter * hop) := by
      exact_mod_cast sample_range (centre_lt h)
    have hj := window_eq_iff.mp heq (win / 2) (by omega)
    rw [sub_add_cancel, sub_add_cancel, hright, realtimeSlice, slice, sample_drop_take] at hj
    split_ifs at hj
    have hk := sample_range_eq_some hj
    obtain ⟨k, rfl⟩ := Nat.exists_eq_add_of_le hc
    rw [Nat.add_sub_cancel_left] at hk
    have hnat : hop * k + 3 * hop = (2 + k) * hop := by exact_mod_cast hk
    have hmul : (2 + k) * hop = 2 * hop + hop * k := by ring
    omega
  · rintro rfl
    rfl

theorem realtime_frame_one_second :
    frame 441 1411 (realtimeSlice 441 1411 10 (List.range 22050)) 3 ≠
      frame 441 1411 (List.range 22050) 10 := by
  have hlt : ((10 : ℕ) : ℤ) < rounds 441 22050 := by decide +kernel
  exact (realtime_frame_iff (by decide) hlt).not.mpr (by decide)

/-- At the rates of the handler the slice for the second counter ends with the third frame. -/
theorem realtime_frame_shifted :
    ¬ ∀ n hop win counter : ℕ, 2 ≤ counter → counter < rounds hop n →
      frame hop win (realtimeSlice hop win counter (List.range n)) 3 =
        frame hop win (List.range n) counter := by
  intro h
  have heq := h 4410 441 1411 2 le_rfl (by decide +kernel)
  rw [frame_realtimeSlice (by decide) (by decide) (by decide)] at heq
  have hj := window_eq_iff.mp heq 705 (by decide)
  have hleft : sample (List.range 4410) ((1323 : ℕ) : ℤ) = some 1323 := sample_range (by decide)
  have hright : sample (List.range 4410) ((882 : ℕ) : ℤ) = some 882 := sample_range (by decide)
  norm_num at hj hleft hright
  rw [hleft, hright] at hj
  cases hj

end BeatNet
