import BeatNet.Library.Averages
import BeatNet.Onnx.Bands

namespace BeatNet.Onnx

open Library.Machines Library.Averages FilterBankProcessor

variable {K ρ : Type} [Field K] [LinearOrder K]

structure Elementary.Documented (maths : Elementary K) : Prop where
  log10_one : maths.log10 1 = 0
  log10_le : ∀ x y, 0 < x → x ≤ y → maths.log10 x ≤ maths.log10 y
  sqrt_nonneg : ∀ x, 0 ≤ x → 0 ≤ maths.sqrt x

/-- The features are bands, none of them negative, and as many differences, none of them above its
band. -/
def InRange (features : List K) : Prop :=
  ∃ bands diffs, features = bands ++ diffs ∧ bands.length = fbankSize / 2 ∧
    List.Forall₂ (fun d x ↦ 0 ≤ d ∧ d ≤ x) diffs bands

theorem InRange.le_of_bands {now diffs : List K} {high : K} (h : InRange (now ++ diffs))
    (hlen : now.length = fbankSize / 2) (hnow : ∀ x ∈ now, 0 ≤ x ∧ x ≤ high) :
    ∀ x ∈ now ++ diffs, 0 ≤ x ∧ x ≤ high := by
  obtain ⟨bands, diffs', heq, hbands, hforall⟩ := h
  obtain ⟨rfl, rfl⟩ := List.append_inj heq (hlen.trans hbands.symm)
  have hdiffs : ∀ d ∈ diffs, 0 ≤ d ∧ d ≤ high := by
    clear heq hbands hlen
    induction hforall with
    | nil => simp
    | cons hd _ ih =>
      obtain ⟨hx, hrest⟩ := List.forall_mem_cons.mp hnow
      exact List.forall_mem_cons.mpr ⟨⟨hd.1, hd.2.trans hx.2⟩, ih hrest⟩
  exact fun x hx ↦ (List.mem_append.mp hx).elim (hnow x) (hdiffs x)

section Differences

variable [IsStrictOrderedRing K] {current previous : List K}

omit [IsStrictOrderedRing K] in
theorem forall₂_replicate_zero (hcurrent : ∀ x ∈ current, 0 ≤ x) :
    List.Forall₂ (fun d x ↦ 0 ≤ d ∧ d ≤ x) (List.replicate current.length 0) current := by
  induction current with
  | nil => exact .nil
  | cons x current ih =>
    obtain ⟨hx, hrest⟩ := List.forall_mem_cons.mp hcurrent
    exact .cons ⟨le_rfl, hx⟩ (ih hrest)

theorem forall₂_rectified (hcurrent : ∀ x ∈ current, 0 ≤ x) (hprevious : ∀ x ∈ previous, 0 ≤ x)
    (hlen : previous.length = current.length) :
    List.Forall₂ (fun d x ↦ 0 ≤ d ∧ d ≤ x)
      (List.zipWith (fun x y ↦ max 0 (x - y)) current previous) current := by
  induction current generalizing previous with
  | nil => exact .nil
  | cons x current ih =>
    cases previous with
    | nil => cases hlen
    | cons y previous =>
      obtain ⟨hx, hcurrent⟩ := List.forall_mem_cons.mp hcurrent
      obtain ⟨hy, hprevious⟩ := List.forall_mem_cons.mp hprevious
      refine .cons ⟨le_max_left _ _, max_le hx ?_⟩ (ih hcurrent hprevious (Nat.succ.inj hlen))
      linarith

theorem forall₂_spectralDiff (hcurrent : ∀ x ∈ current, 0 ≤ x)
    (hprevious : ∀ x ∈ previous, 0 ≤ x) (h : previous = [] ∨ previous.length = current.length) :
    List.Forall₂ (fun d x ↦ 0 ≤ d ∧ d ≤ x) (spectralDiff true current previous h).1 current := by
  by_cases hnil : previous = []
  · rw [spectralDiff, if_pos hnil]
    exact forall₂_replicate_zero hcurrent
  · rw [spectralDiff, if_neg hnil]
    exact forall₂_rectified hcurrent hprevious (h.resolve_left hnil)

end Differences

section Bands

variable [FloorRing K] [IsStrictOrderedRing K] {maths : Elementary K} {lib : RealFft K}
  {frame : List K} {peak : K}

theorem portions_normalised {weights : List K} (h : ∀ w ∈ weights, 0 ≤ w) :
    Portions (normalised weights) := by
  by_cases hsum : 0 < weights.sum
  · refine ⟨fun w hw ↦ ?_, (sum_normalised_iff.mpr hsum).le⟩
    rw [normalised, if_pos hsum] at hw
    obtain ⟨v, hv, rfl⟩ := List.mem_map.mp hw
    exact div_nonneg (h v hv) hsum.le
  · rw [normalised, if_neg hsum]
    exact ⟨h, (not_lt.mp hsum).trans zero_le_one⟩

theorem configured_filterbankProcessor : (filterbankProcessor maths).Configured where
  fmin := (by norm_num : (0 : K) < 30)
  bands := (by decide : 0 < 16)
  rate := (by decide : 0 < 22050)
  size := (by decide : 0 < fftSize)

theorem portions_filters : ∀ filt ∈ (filterbankProcessor maths).filters, Portions filt := by
  have hfilters : (filterbankProcessor maths).filters = (List.range
      ((filterbankProcessor maths).numFilters maths)).map fun i ↦
        normalised ((filterbankProcessor maths).weights maths i) :=
    filters_buildFilters (b := filterbankProcessor maths) rfl
  intro filt hfilt
  rw [hfilters] at hfilt
  obtain ⟨i, _, rfl⟩ := List.mem_map.mp hfilt
  exact portions_normalised configured_filterbankProcessor.weights_nonneg

omit [FloorRing K] in
theorem compressed_bounds (hdoc : maths.Documented) {x : K} (hx : 0 ≤ x ∧ x ≤ peak) :
    0 ≤ maths.log10 (max (1 * x + 1) (1 / 10 ^ 6)) ∧
      maths.log10 (max (1 * x + 1) (1 / 10 ^ 6)) ≤ maths.log10 (peak + 1) := by
  obtain ⟨hlow, hhigh⟩ := hx
  have hsmall : (1 / 10 ^ 6 : K) ≤ 1 := by norm_num
  rw [one_mul, max_eq_left (by linarith)]
  refine ⟨?_, hdoc.log10_le _ _ (by linarith) (by linarith)⟩
  rw [← hdoc.log10_one]
  exact hdoc.log10_le _ _ one_pos (by linarith)

theorem mem_logBands (hdoc : maths.Documented)
    (hpeak : ∀ x ∈ (fftProcessor maths).computeFft maths lib frame, x ≤ peak) :
    ∀ x ∈ (spectralAnalysis maths lib).logBands frame, 0 ≤ x ∧ x ≤ maths.log10 (peak + 1) := by
  have hmagnitude : ∀ x ∈ (fftProcessor maths).computeFft maths lib frame, 0 ≤ x ∧ x ≤ peak := by
    intro x hx
    obtain ⟨z, _, hz⟩ := List.mem_map.mp hx
    refine ⟨?_, hpeak x hx⟩
    rw [← hz]
    exact hdoc.sqrt_nonneg _ (add_nonneg (mul_self_nonneg _) (mul_self_nonneg _))
  have hnonneg : 0 ≤ peak := by
    have hlen : 0 < ((fftProcessor maths).computeFft maths lib frame).length := by
      rw [FFTProcessor.length_computeFft]
      exact (by decide : 0 < fftSize)
    obtain ⟨x, hx⟩ := List.exists_mem_of_length_pos hlen
    exact (hmagnitude x hx).1.trans (hmagnitude x hx).2
  intro x hx
  obtain ⟨band, hband, rfl⟩ := List.mem_map.mp hx
  obtain ⟨filt, hfilt, rfl⟩ := List.mem_map.mp hband
  exact compressed_bounds hdoc ((portions_filters filt hfilt).sum_zipWith hmagnitude hnonneg)

theorem logBands_nonneg (hdoc : maths.Documented) (frame : List K) :
    ∀ x ∈ (spectralAnalysis maths lib).logBands frame, 0 ≤ x := by
  intro x hx
  have hpeak : ∀ y ∈ (fftProcessor maths).computeFft maths lib frame,
      y ≤ ((fftProcessor maths).computeFft maths lib frame).foldr max 0 :=
    fun y hy ↦ List.le_max_of_le' 0 hy le_rfl
  exact (mem_logBands hdoc hpeak x hx).1

end Bands

section Runs

variable [FloorRing K] [IsStrictOrderedRing K] {maths : Elementary K} {lib : RealFft K}

def shipped (maths : Elementary K) (lib : RealFft K) (resample : List K → ρ → List K × ρ) :
    Parts ρ K :=
  { spectralAnalysis maths lib with resample := resample }

structure Tracker.InRange (b : Tracker ρ K) : Prop where
  prevLogFb : ∀ x ∈ b.prevLogFb, 0 ≤ x
  preprocessedInput : Onnx.InRange b.preprocessedInput

variable {resample : List K → ρ → List K × ρ} {b : Tracker ρ K}

omit [FloorRing K] [IsStrictOrderedRing K] in
theorem Tracker.InRange.new (r₀ : ρ) : (Tracker.new r₀ : Tracker ρ K).InRange := by
  refine ⟨by simp [Tracker.new], List.replicate (fbankSize / 2) 0,
    List.replicate (fbankSize / 2) 0, ?_, List.length_replicate, ?_⟩
  · rw [List.replicate_append_replicate]
    rfl
  · have hcurrent : ∀ x ∈ List.replicate (fbankSize / 2) (0 : K), 0 ≤ x :=
      fun x hx ↦ (List.eq_of_mem_replicate hx).ge
    have hzero := forall₂_replicate_zero hcurrent
    rwa [List.length_replicate] at hzero

theorem Tracker.InRange.preprocess (hdoc : maths.Documented) (h : b.InRange) (raw : List K) :
    (b.preprocess (shipped maths lib resample) raw).2.InRange := by
  cases hframe : (b.signalProcessor.processed
      ((shipped maths lib resample).resample raw b.resampler).1).1 with
  | none =>
    rw [Tracker.preprocess_none hframe]
    exact ⟨h.prevLogFb, h.preprocessedInput⟩
  | some frame =>
    obtain ⟨_, hlog, hout⟩ := Tracker.preprocess_some hframe
    have hbands : ∀ x ∈ (spectralAnalysis maths lib).logBands frame, 0 ≤ x :=
      logBands_nonneg hdoc frame
    refine ⟨?_, _, _, hout, Analysis.length_logBands _ _, ?_⟩
    · rw [hlog]
      exact hbands
    · exact forall₂_spectralDiff hbands h.prevLogFb _

/-- Whatever has been heard, the difference of a band stays between zero and the value of the band,
and no feature of a frame is above the logarithm of the peak of its spectrum, plus one. -/
theorem features_in_range (hdoc : maths.Documented) (resample : List K → ρ → List K × ρ) (r₀ : ρ)
    (raws : List (List K)) :
    InRange (trace (Tracker.preprocess (shipped maths lib resample)) raws
        (Tracker.new r₀)).2.preprocessedInput ∧
      ∀ raw peak, (∀ x ∈ (fftProcessor maths).computeFft maths lib
          ((resampled (shipped maths lib resample) r₀ (raws ++ [raw])).flatten.rtake frameLength),
            x ≤ peak) →
        ∀ b, (trace (Tracker.preprocess (shipped maths lib resample)) raws
            (Tracker.new r₀)).2.preprocess (shipped maths lib resample) raw = (true, b) →
          ∀ x ∈ b.preprocessedInput, 0 ≤ x ∧ x ≤ maths.log10 (peak + 1) := by
  have hrun : ∀ raws, (trace (Tracker.preprocess (shipped maths lib resample)) raws
      (Tracker.new r₀)).2.InRange := fun raws ↦
    (trace_invariant (P := fun _ ↦ True) (fun raw b hb ↦ ⟨trivial, hb.preprocess hdoc raw⟩)
      (.new r₀) raws).2
  refine ⟨(hrun raws).preprocessedInput, fun raw peak hpeak b hcall ↦ ?_⟩
  have hanswers := ((follows_trace (shipped maths lib resample) r₀ raws).preprocess raw).1
  have hnext := ((hrun raws).preprocess hdoc raw : (Tracker.preprocess
    (shipped maths lib resample) raw _).2.InRange).preprocessedInput
  rw [hcall] at hanswers hnext
  obtain ⟨now, _, hnow, hout⟩ := hanswers.features rfl
  rw [← Analysis.logBands_eq] at hnow
  rw [hout] at hnext
  rw [hout]
  refine hnext.le_of_bands ?_ (hnow ▸ mem_logBands hdoc hpeak)
  rw [hnow]
  exact Analysis.length_logBands _ _

end Runs

section Real

theorem realElementary_documented : realElementary.Documented where
  log10_one := Real.logb_one
  log10_le _ _ hx hle := Real.logb_le_logb_of_le (by norm_num : (1 : ℝ) < (10 : ℕ)) hx hle
  sqrt_nonneg _ _ := Real.sqrt_nonneg _

theorem features_in_range_dft :
    InRange (trace (Tracker.preprocess (shipped realElementary dft fun raw (_ : Unit) ↦ (raw, ())))
      [List.replicate frameLength 1, [0]] (Tracker.new ())).2.preprocessedInput :=
  (features_in_range realElementary_documented (fun raw _ ↦ (raw, ())) () _).1

end Real

end BeatNet.Onnx
