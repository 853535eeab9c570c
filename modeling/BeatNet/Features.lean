import BeatNet.Handler
import Mathlib.Algebra.Order.Floor.Semifield

namespace BeatNet

open Numpy

structure Array2 (K : Type) where
  rows : ℕ
  columns : ℕ
  entry : Fin rows → Fin columns → K

def Array2.T {K : Type} (a : Array2 K) : Array2 K := ⟨a.columns, a.rows, fun j i ↦ a.entry i j⟩

/-- What the feature modules use of madmom and librosa: the chain of processors for a frame size, a
hop size and a number of frames, and the times of frames. -/
structure FeatureLibrary (K : Type) where
  pipe : ℕ → ℕ → Option ℕ → List ℚ → Array2 K
  framesToTime : List ℕ → ℚ → ℕ → List ℚ

namespace FeatureLibrary

variable {K : Type} (lib : FeatureLibrary K)

/-- Frames of a signal without a given number of frames start every hop, as long as there are
samples left; every frame makes a row of the features. -/
def Framed : Prop :=
  ∀ (frameSize hopSize : ℕ) (audio : List ℚ), 0 < hopSize → audio ≠ [] →
    (lib.pipe frameSize hopSize none audio).rows = ⌈(audio.length / hopSize : ℚ)⌉₊

def Timed : Prop :=
  ∀ frames sampleRate hopLength,
    (lib.framesToTime frames sampleRate hopLength).length = frames.length

end FeatureLibrary

/-- `LOG_SPECT`, the feature module of the tracker. -/
structure LogSpect (K : Type) where
  lib : FeatureLibrary K
  sampleRate : ℚ
  winLength : ℕ
  hopLength : ℕ
  mode : Mode

namespace LogSpect

variable {K : Type} (spect : LogSpect K)

def numFrames : Option ℕ :=
  if spect.mode = .online ∨ spect.mode = .offline then none else some 4

def processAudio (audio : List ℚ) : Array2 K :=
  (spect.lib.pipe spect.winLength spect.hopLength spect.numFrames audio).T

def getExpectedFrames (audio : List ℚ) : ℕ := 1 + audio.length / spect.hopLength

def getSampleRange (numFrames : ℤ) : List ℤ :=
  let maxSamples := numFrames * spect.hopLength - 1
  let minSamples := max 1 (maxSamples - spect.hopLength + 1)
  (List.range (maxSamples + 1 - minSamples).toNat).map fun (i : ℕ) ↦ minSamples + i

def getTimes (audio : List ℚ) : List ℚ :=
  let frameIdcs := List.range (spect.getExpectedFrames audio + 1)
  spect.lib.framesToTime frameIdcs spect.sampleRate spect.hopLength

def Announced (audio : List ℚ) : Prop :=
  spect.getExpectedFrames audio = (spect.processAudio audio).columns

def Dated (audio : List ℚ) : Prop :=
  (spect.getTimes audio).length = (spect.processAudio audio).columns

def Ranged (numFrames : ℤ) : Prop :=
  ∀ n : ℤ, n ∈ spect.getSampleRange numFrames ↔ ∃ audio : List ℚ, audio ≠ [] ∧
    (audio.length : ℤ) = n ∧ ((spect.processAudio audio).columns : ℤ) = numFrames

variable {spect} {audio : List ℚ} {n h k : ℕ}

theorem mem_getSampleRange {numFrames m : ℤ} : m ∈ spect.getSampleRange numFrames ↔
    1 ≤ m ∧ (numFrames - 1) * spect.hopLength ≤ m ∧ m < numFrames * spect.hopLength := by
  rw [sub_mul, one_mul, getSampleRange, List.mem_map]
  apply Iff.intro
  · intro hm
    obtain ⟨i, hi, rfl⟩ := hm
    rw [List.mem_range] at hi
    omega
  · intro hm
    obtain ⟨hone, hlow, hhigh⟩ := hm
    refine ⟨(m - max 1 (numFrames * spect.hopLength - 1 - spect.hopLength + 1)).toNat, ?_, ?_⟩
    · rw [List.mem_range]
      omega
    · omega

theorem ceil_div_eq_succ_iff (hh : 0 < h) :
    ⌈(n / h : ℚ)⌉₊ = k + 1 ↔ k * h < n ∧ n ≤ (k + 1) * h := by
  have hpos : (0 : ℚ) < h := Nat.cast_pos.mpr hh
  rw [Nat.ceil_eq_iff (show k + 1 ≠ 0 by omega), Nat.add_sub_cancel, lt_div_iff₀ hpos,
    div_le_iff₀ hpos]
  norm_cast

theorem columns_processAudio (hlib : spect.lib.Framed) (hmode : spect.mode ≠ .realtime)
    (hhop : 0 < spect.hopLength) (haudio : audio ≠ []) :
    (spect.processAudio audio).columns = ⌈(audio.length / spect.hopLength : ℚ)⌉₊ := by
  have hnum : spect.numFrames = none := by
    rw [numFrames]
    cases hm : spect.mode with
    | realtime => exact absurd hm hmode
    | online => rfl
    | offline => rfl
  rw [processAudio, hnum]
  exact hlib _ _ _ hhop haudio

section Accounting

variable (hlib : spect.lib.Framed) (hmode : spect.mode ≠ .realtime) (hhop : 0 < spect.hopLength)
include hlib hmode hhop

theorem announced_iff (haudio : audio ≠ []) :
    spect.Announced audio ↔ ¬ spect.hopLength ∣ audio.length := by
  have hdiv := Nat.div_add_mod' audio.length spect.hopLength
  have hmod := Nat.mod_lt audio.length hhop
  rw [Announced, getExpectedFrames, columns_processAudio hlib hmode hhop haudio, eq_comm,
    Nat.add_comm, ceil_div_eq_succ_iff hhop, Nat.add_mul, one_mul, Nat.dvd_iff_mod_eq_zero]
  omega

theorem not_dated (htimes : spect.lib.Timed) (haudio : audio ≠ []) : ¬ spect.Dated audio := by
  have hdiv := Nat.div_add_mod' audio.length spect.hopLength
  have hmod := Nat.mod_lt audio.length hhop
  rw [Dated, getTimes, htimes, List.length_range, getExpectedFrames,
    columns_processAudio hlib hmode hhop haudio, eq_comm, ceil_div_eq_succ_iff hhop, Nat.add_mul,
    one_mul]
  omega

theorem ranged_iff {numFrames : ℤ} : spect.Ranged numFrames ↔ numFrames ≤ 0 := by
  apply Iff.intro
  · intro h
    by_contra hpos
    obtain ⟨k, hk⟩ := Int.eq_ofNat_of_zero_le (by omega : 0 ≤ numFrames - 1)
    have hmul : k * spect.hopLength < (k + 1) * spect.hopLength :=
      Nat.mul_lt_mul_of_pos_right (Nat.lt_succ_self k) hhop
    have hne : List.replicate ((k + 1) * spect.hopLength) (0 : ℚ) ≠ [] := by
      rw [ne_eq, List.replicate_eq_nil_iff]
      omega
    have hcolumns := columns_processAudio hlib hmode hhop hne
    rw [List.length_replicate, (ceil_div_eq_succ_iff hhop).mpr ⟨hmul, le_rfl⟩] at hcolumns
    have hmem := (h ((k + 1) * spect.hopLength : ℕ)).mpr
      ⟨_, hne, by rw [List.length_replicate], by rw [hcolumns]; omega⟩
    obtain ⟨_, _, hlt⟩ := mem_getSampleRange.mp hmem
    rw [show numFrames = k + 1 by omega] at hlt
    push_cast at hlt
    exact lt_irrefl _ hlt
  · intro hnone n
    apply iff_of_false
    · intro hmem
      obtain ⟨hone, _, hlt⟩ := mem_getSampleRange.mp hmem
      have hprod : numFrames * spect.hopLength ≤ 0 :=
        Int.mul_nonpos_of_nonpos_of_nonneg hnone (Int.natCast_nonneg _)
      omega
    · intro hex
      obtain ⟨audio, haudio, _, hcolumns⟩ := hex
      have hlen : (0 : ℚ) < audio.length := Nat.cast_pos.mpr (List.length_pos_iff.mpr haudio)
      have hceil : 0 < ⌈(audio.length / spect.hopLength : ℚ)⌉₊ :=
        Nat.ceil_pos.mpr (div_pos hlen (Nat.cast_pos.mpr hhop))
      rw [columns_processAudio hlib hmode hhop haudio] at hcolumns
      omega

/-- The three accounts of the number of frames never agree with the features: there are always too
many times, the announced number is one too many at multiples of the hop, and the ranges stop
before them. -/
theorem frame_accounting (htimes : spect.lib.Timed) (haudio : audio ≠ []) :
    ¬ (spect.Announced audio ∧ spect.Dated audio ∧ ∀ numFrames, spect.Ranged numFrames) ∧
      (spect.Announced audio ↔ ¬ spect.hopLength ∣ audio.length) ∧
      ¬ spect.Dated audio ∧ ∀ numFrames, spect.Ranged numFrames ↔ numFrames ≤ 0 := by
  have hdated := not_dated hlib hmode hhop htimes haudio
  exact ⟨fun h ↦ hdated h.2.1, announced_iff hlib hmode hhop haudio, hdated,
    fun _ ↦ ranged_iff hlib hmode hhop⟩

end Accounting

def silentLibrary : FeatureLibrary ℚ where
  pipe _ hopSize numFrames audio :=
    ⟨numFrames.getD ⌈(audio.length / hopSize : ℚ)⌉₊, 1, fun _ _ ↦ 0⟩
  framesToTime frames sampleRate hopLength :=
    frames.map fun (f : ℕ) ↦ (f * hopLength / sampleRate : ℚ)

theorem framed_silentLibrary : silentLibrary.Framed := fun _ _ _ _ _ ↦ rfl

theorem timed_silentLibrary : silentLibrary.Timed := by
  intro frames sampleRate hopLength
  rw [silentLibrary, List.length_map]

def onlineSpect : LogSpect ℚ := ⟨silentLibrary, 22050, 1411, 441, .online⟩

theorem frame_accounting_part_of_a_hop : onlineSpect.Announced [0, 0, 0] :=
  (frame_accounting framed_silentLibrary (by decide) (by decide)
    timed_silentLibrary (List.cons_ne_nil _ _)).2.1.mpr (by decide)

/-- For a signal of one hop two frames are announced, and there is one. -/
theorem frame_accounting_one_hop :
    ¬ ∀ (spect : LogSpect ℚ) (audio : List ℚ), spect.lib.Framed → spect.lib.Timed →
      spect.mode ≠ .realtime → 0 < spect.hopLength → audio ≠ [] →
        spect.Announced audio ∧ spect.Dated audio ∧ ∀ numFrames, spect.Ranged numFrames := by
  intro h
  have hne : List.replicate 441 (0 : ℚ) ≠ [] := List.cons_ne_nil 0 (List.replicate 440 0)
  have hall := h onlineSpect _ framed_silentLibrary timed_silentLibrary (by decide) (by decide) hne
  have hnot := (announced_iff framed_silentLibrary (by decide) (by decide) hne).mp hall.1
  rw [List.length_replicate] at hnot
  exact hnot (dvd_refl 441)

end LogSpect

end BeatNet
