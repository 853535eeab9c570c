import BeatNet.Onnx.FilterBank
import Mathlib.Analysis.SpecialFunctions.Log.Base
import Mathlib.Analysis.SpecialFunctions.Trigonometric.Basic

namespace BeatNet.Onnx

open Library.Triangles

section Bins

variable {K : Type} [Field K] [LinearOrder K] [FloorRing K] (maths : Elementary K)
  (lib : RealFft K)

/-- The bin at which the spectrum of the class carries a frequency. -/
def spectrumBin (f : K) : K := (fftProcessor maths).bin lib 22050 f

def spectrumHz (j : ℕ) : K := j * 22050 / frameSizePow2

def Inside (i : ℕ) (f : K) : Prop :=
  (filterbankProcessor maths).center maths i < f ∧
    f < (filterbankProcessor maths).center maths (i + 2)

variable {maths lib}

omit [FloorRing K] in
theorem spectrumBin_eq (hbin : ∀ n sampleRate f, lib.bin n sampleRate f = f * n / sampleRate)
    (f : K) : spectrumBin maths lib f = f * 2048 / 22050 := by
  rw [spectrumBin, FFTProcessor.bin, hbin]
  norm_num [fftProcessor, FFTProcessor.new, frameSizePow2]

theorem hzToBin_filterbankProcessor (f : K) :
    (filterbankProcessor maths).hzToBin f = f * 706 / 22050 := by
  have heq : (filterbankProcessor maths).hzToBin f = f / (22050 : ℕ) * (706 : ℕ) := rfl
  rw [heq]
  push_cast
  ring

/-- The bank takes every bin for a frequency almost three times as high as it is. -/
theorem binToHz_filterbankProcessor (j : ℕ) :
    (filterbankProcessor maths).binToHz j = 2048 / 706 * spectrumHz j := by
  have heq : (filterbankProcessor maths).binToHz j = j * (22050 : ℕ) / (706 : ℕ) := rfl
  rw [heq, spectrumHz, frameSizePow2]
  push_cast
  ring

variable [IsStrictOrderedRing K]

theorem spectrumBin_eq_iff (hbin : ∀ n sampleRate f, lib.bin n sampleRate f = f * n / sampleRate)
    {f : K} {j : ℕ} : spectrumBin maths lib f = j ↔ f = spectrumHz j := by
  rw [spectrumBin_eq hbin, spectrumHz, frameSizePow2]
  constructor <;> intro h <;> push_cast at * <;> linarith

theorem lt_center (i : ℕ) :
    (filterbankProcessor maths).center maths i < (filterbankProcessor maths).center maths (i + 1) ∧
      (filterbankProcessor maths).center maths (i + 1) <
        (filterbankProcessor maths).center maths (i + 2) := by
  have hfmin : 0 < (filterbankProcessor maths).fmin := (by norm_num : (0 : K) < 30)
  have hbands : 0 < (filterbankProcessor maths).bandsPerOctave := (by decide : 0 < 16)
  exact ⟨FilterBankProcessor.center_lt_center hfmin hbands (by omega),
    FilterBankProcessor.center_lt_center hfmin hbands (by omega)⟩

theorem band_width (i : ℕ) :
    0 < (filterbankProcessor maths).center maths i ∧
      355 / 354 * (filterbankProcessor maths).center maths i <
        (filterbankProcessor maths).center maths (i + 2) ∧
      (filterbankProcessor maths).center maths (i + 2) <
        2 * (filterbankProcessor maths).center maths i := by
  have hfmin : 0 < (filterbankProcessor maths).fmin := (by norm_num : (0 : K) < 30)
  have hpos : 0 < (filterbankProcessor maths).center maths i :=
    FilterBankProcessor.center_pos hfmin i
  have hratio : maths.exp2 ((2 : ℕ) / (16 : ℕ)) ^ 8 = 2 := by
    rw [maths.exp2_pow, ← maths.exp2_one]
    congr 1
    norm_num
  have hexp := maths.exp2_pos ((2 : ℕ) / (16 : ℕ))
  have hlow : 355 / 354 < maths.exp2 ((2 : ℕ) / (16 : ℕ)) := by
    rw [← pow_lt_pow_iff_left₀ (by norm_num) hexp.le (by decide : 8 ≠ 0), hratio]
    norm_num
  have hhigh : maths.exp2 ((2 : ℕ) / (16 : ℕ)) < 2 := by
    rw [← pow_lt_pow_iff_left₀ hexp.le (by norm_num) (by decide : 8 ≠ 0), hratio]
    norm_num
  have hnext : (filterbankProcessor maths).center maths (i + 2) =
      (filterbankProcessor maths).center maths i * maths.exp2 ((2 : ℕ) / (16 : ℕ)) :=
    FilterBankProcessor.center_add i 2
  rw [hnext, mul_comm _ (maths.exp2 _)]
  exact ⟨hpos, mul_lt_mul_of_pos_right hlow hpos, mul_lt_mul_of_pos_right hhigh hpos⟩

theorem weights_eq_triangle_iff (i j : ℕ) :
    ((filterbankProcessor maths).weights maths i).getD j 0 =
        triangle ((filterbankProcessor maths).center maths i)
          ((filterbankProcessor maths).center maths (i + 1))
          ((filterbankProcessor maths).center maths (i + 2)) (spectrumHz j) ↔
      ¬ Inside maths i (spectrumHz j) ∧
        ¬ (j < fftSize / 2 + 1 ∧ Inside maths i ((filterbankProcessor maths).binToHz j)) := by
  obtain ⟨hl, hr⟩ : (filterbankProcessor maths).center maths i <
      (filterbankProcessor maths).center maths (i + 1) ∧ _ := lt_center i
  have hweights : ((filterbankProcessor maths).weights maths i).getD j 0 =
      if j < fftSize / 2 + 1 then _ else 0 :=
    FilterBankProcessor.weights_getD (by decide : 0 < 22050) (by decide : 0 < fftSize) i j
  by_cases hj : j < fftSize / 2 + 1
  · have hapart : ¬ (Inside maths i ((filterbankProcessor maths).binToHz j) ∧
        Inside maths i (spectrumHz j)) := by
      intro h
      obtain ⟨⟨_, hhigh⟩, hlow, _⟩ := h
      obtain ⟨hpos, _, hwidth⟩ : 0 < (filterbankProcessor maths).center maths i ∧ _ := band_width i
      rw [binToHz_filterbankProcessor] at hhigh
      linarith
    rw [hweights, if_pos hj, triangle_eq_triangle_iff hl hr hapart, and_comm]
    simp only [hj, true_and, Inside]
  · rw [hweights, if_neg hj, eq_comm, triangle_eq_zero_iff hl hr]
    simp only [hj, false_and, not_false_eq_true, and_true, Inside]

omit [LinearOrder K] [FloorRing K] [IsStrictOrderedRing K] in
theorem spectrumHz_eq (j : ℕ) : (spectrumHz j : K) = j * (22050 / 2048) := by
  simp only [spectrumHz, frameSizePow2, Nat.cast_ofNat, mul_div_assoc]

omit [FloorRing K] in
theorem spectrumHz_lt_spectrumHz {j k : ℕ} : (spectrumHz j : K) < spectrumHz k ↔ j < k := by
  have hpos : (0 : K) < 22050 / 2048 := by norm_num
  simp only [spectrumHz_eq, mul_lt_mul_iff_left₀ hpos, Nat.cast_lt]

theorem exists_bin_inside {i : ℕ}
    (hlow : spectrumHz 354 ≤ (filterbankProcessor maths).center maths i)
    (hhigh : (filterbankProcessor maths).center maths i < spectrumHz 705) :
    ∃ j, 354 < j ∧ j < fftSize ∧ Inside maths i (spectrumHz j) := by
  obtain ⟨hpos, hwidth, _⟩ : 0 < (filterbankProcessor maths).center maths i ∧ _ := band_width i
  have hstep : (0 : K) < 22050 / 2048 := by norm_num
  have hbelow := Nat.floor_le (div_pos hpos hstep).le
  have habove := Nat.lt_floor_add_one ((filterbankProcessor maths).center maths i / (22050 / 2048))
  rw [le_div_iff₀ hstep, ← spectrumHz_eq] at hbelow
  rw [div_lt_iff₀ hstep, ← Nat.cast_succ, ← spectrumHz_eq] at habove
  have hlast := spectrumHz_lt_spectrumHz.mp (hbelow.trans_lt hhigh)
  refine ⟨_, spectrumHz_lt_spectrumHz.mp (hlow.trans_lt habove), Nat.succ_lt_succ hlast, habove, ?_⟩
  rw [spectrumHz_eq] at hlow hbelow ⊢
  push_cast at hlow ⊢
  linarith

omit [IsStrictOrderedRing K] in
/-- The upper half of the spectrum reaches no band. -/
theorem apply_filterbankProcessor (spectrum : List K) :
    (filterbankProcessor maths).apply (spectrum.take 354) =
      (filterbankProcessor maths).apply spectrum := by
  apply FilterBankProcessor.apply_take
  intro filt hfilt
  have hlen : filt.length = fftSize / 2 + 1 := FilterBankProcessor.length_of_mem_filters hfilt
  exact hlen.le.trans (by decide)

theorem bins_inside_reached_iff (i : ℕ) :
    (∀ j < fftSize, Inside maths i (spectrumHz j) →
      j < min fftSize ((filterbankProcessor maths).weights maths i).length) ↔
      (filterbankProcessor maths).center maths (i + 2) ≤ spectrumHz 354 ∨
        spectrumHz 705 ≤ (filterbankProcessor maths).center maths i := by
  have hreach : min fftSize ((filterbankProcessor maths).weights maths i).length = 354 := by
    rw [FilterBankProcessor.length_weights]
    exact (by decide : min fftSize (fftSize / 2 + 1) = 354)
  rw [hreach]
  apply Iff.intro
  · intro h
    by_contra hnot
    obtain ⟨hupper, hlower⟩ := not_or.mp hnot
    rw [not_le] at hupper hlower
    rcases lt_or_ge ((filterbankProcessor maths).center maths i) (spectrumHz 354) with hlow | hlow
    · exact lt_irrefl 354 (h 354 (by decide) ⟨hlow, hupper⟩)
    · obtain ⟨j, hj, hsize, hinside⟩ := exists_bin_inside hlow hlower
      exact lt_asymm hj (h j hsize hinside)
  · intro h j hj hinside
    rcases h with hupper | hlower
    · exact spectrumHz_lt_spectrumHz.mp (hinside.2.trans_le hupper)
    · have hlast := spectrumHz_lt_spectrumHz.mp (hlower.trans_lt hinside.1)
      have hsize : fftSize = 706 := by decide
      omega

/-- The spectrum and the filter bank agree on no bin but that of zero; a filter
has the height meant for it only at the bins where both are zero, and sees every bin of
its band only below bin 354 or beyond the spectrum. The bins of the spectrum are the first ones of
the transform of the padded frame. -/
theorem spectrum_filterbank_bins
    (hbin : ∀ n sampleRate f, lib.bin n sampleRate f = f * n / sampleRate) :
    (∀ f, 0 ≤ f → f ≤ 22050 / 2 →
      (spectrumBin maths lib f = (filterbankProcessor maths).hzToBin f ↔ f = 0)) ∧
    (∀ i j f, j < fftSize → spectrumBin maths lib f = j →
      (((filterbankProcessor maths).weights maths i).getD j 0 =
          triangle ((filterbankProcessor maths).center maths i)
            ((filterbankProcessor maths).center maths (i + 1))
            ((filterbankProcessor maths).center maths (i + 2)) f ↔
        ¬ Inside maths i f ∧
          ¬ (j < fftSize / 2 + 1 ∧ Inside maths i ((filterbankProcessor maths).binToHz j)))) ∧
    (∀ i, (∀ j f, j < fftSize → spectrumBin maths lib f = j → Inside maths i f →
        j < min fftSize ((filterbankProcessor maths).weights maths i).length) ↔
      (filterbankProcessor maths).center maths (i + 2) ≤ spectrumHz 354 ∨
        spectrumHz 705 ≤ (filterbankProcessor maths).center maths i) ∧
    ∀ frame j, j < fftSize → ((fftProcessor maths).computeFft maths lib frame)[j]? =
      (lib.r2c frameSizePow2 ((fftProcessor maths).fftInput frame))[j]?.map
        (FFTProcessor.magnitude maths) := by
  refine ⟨fun f _ _ ↦ ?_, fun i j f _ hf ↦ ?_, fun i ↦ ?_, fun frame j hj ↦ ?_⟩
  · rw [spectrumBin_eq hbin, hzToBin_filterbankProcessor]
    constructor <;> intro h <;> linarith
  · rw [(spectrumBin_eq_iff hbin).mp hf]
    exact weights_eq_triangle_iff i j
  · simp only [spectrumBin_eq_iff hbin, ← bins_inside_reached_iff i]
    exact ⟨fun h j hj hinside ↦ h j _ hj rfl hinside,
      fun h j f hj hf hinside ↦ h j hj (hf ▸ hinside)⟩
  · exact FFTProcessor.computeFft_getElem? maths lib (fftProcessor maths) frame hj

end Bins

section Real

theorem one_lt_two_cast : (1 : ℝ) < (2 : ℕ) := by norm_num

theorem two_rpow_one : ((2 : ℕ) : ℝ) ^ (1 : ℝ) = 2 := by norm_num

theorem two_rpow_logb {x : ℝ} (hx : 0 < x) : ((2 : ℕ) : ℝ) ^ Real.logb (2 : ℕ) x = x :=
  Real.rpow_logb (zero_lt_one.trans one_lt_two_cast) one_lt_two_cast.ne' hx

noncomputable def realElementary : Elementary ℝ where
  exp2 x := ((2 : ℕ) : ℝ) ^ x
  log2 := Real.logb (2 : ℕ)
  log10 := Real.logb (10 : ℕ)
  cos := Real.cos
  sqrt := Real.sqrt
  exp2_add := Real.rpow_add (zero_lt_one.trans one_lt_two_cast)
  exp2_strictMono _ _ := Real.rpow_lt_rpow_of_exponent_lt one_lt_two_cast
  exp2_one := two_rpow_one
  exp2_log2 _ := two_rpow_logb

noncomputable def dft : RealFft ℝ where
  r2c n input := (List.range (n / 2 + 1)).map fun (k : ℕ) ↦
    ((input.mapIdx fun j x ↦ x * Real.cos ((2 : ℕ) * Real.pi * k * j / n)).sum,
      -(input.mapIdx fun j x ↦ x * Real.sin ((2 : ℕ) * Real.pi * k * j / n)).sum)
  bin n sampleRate f := f * n / sampleRate
  length_r2c _ _ := by rw [List.length_map, List.length_range]

theorem spectrum_filterbank_bins_zero :
    spectrumBin realElementary dft 0 = (filterbankProcessor realElementary).hzToBin 0 :=
  ((spectrum_filterbank_bins fun _ _ _ ↦ rfl).1 0 le_rfl (by norm_num)).mpr rfl

/-- The highest frequency stands at bin 1024 of the transform, and at bin 353 for the bank. -/
theorem spectrum_filterbank_disagree :
    ¬ ∀ (maths : Elementary ℝ) (lib : RealFft ℝ),
      (∀ n sampleRate f, lib.bin n sampleRate f = f * n / sampleRate) →
        ∀ f, 0 ≤ f → f ≤ 22050 / 2 →
          spectrumBin maths lib f = (filterbankProcessor maths).hzToBin f := by
  intro h
  have heq := h realElementary dft (fun _ _ _ ↦ rfl) 11025 (by norm_num) (by norm_num)
  rw [spectrumBin_eq fun _ _ _ ↦ rfl, hzToBin_filterbankProcessor] at heq
  norm_num at heq

end Real

end BeatNet.Onnx
