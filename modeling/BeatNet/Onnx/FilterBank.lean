import BeatNet.Library.Triangles
import BeatNet.Onnx.Preprocess
import Mathlib.Tactic.FieldSimp
import Mathlib.Tactic.Linarith
import Mathlib.Tactic.NormNum
import Mathlib.Tactic.Ring

namespace BeatNet.Onnx

open Library.Triangles

variable {K : Type} [Field K] [LinearOrder K]

/-- The functions of the C library that the spectra are computed with. -/
structure Elementary (K : Type) [Field K] [LinearOrder K] where
  exp2 : K → K
  log2 : K → K
  log10 : K → K
  cos : K → K
  sqrt : K → K
  exp2_add : ∀ x y, exp2 (x + y) = exp2 x * exp2 y
  exp2_strictMono : StrictMono exp2
  exp2_one : exp2 1 = 2
  exp2_log2 : ∀ x, 0 < x → exp2 (log2 x) = x

/-- The FFT library: for a length, the transform of that many real numbers, as
real and imaginary parts, and the bin at which it puts a frequency of a signal
with a sample rate. KissFFT and FFTW are used alike. -/
structure RealFft (K : Type) where
  r2c : ℕ → List K → List (K × K)
  bin : ℕ → K → K → K
  length_r2c : ∀ n input, (r2c n input).length = n / 2 + 1

structure FFTProcessor (K : Type) where
  frameSize : ℕ
  fftSize : ℕ
  hannWindow : List K
  frameSizePadded : ℕ
  fftSize_le : fftSize ≤ frameSizePadded / 2 + 1

namespace FFTProcessor

/-- `initialize_hann_window`, with the source's value of `M_PI`. -/
def hann (maths : Elementary K) (frameSize : ℕ) : List K :=
  (List.range frameSize).map fun (i : ℕ) ↦
    1 / 2 * (1 - maths.cos (2 * (314159 / 100000) * i / (frameSize - 1)))

def new (maths : Elementary K) (frameSize fftSize frameSizePadded : ℕ)
    (h : fftSize ≤ frameSizePadded / 2 + 1) : FFTProcessor K where
  frameSize := frameSize
  fftSize := fftSize
  hannWindow := hann maths frameSize
  frameSizePadded := frameSizePadded
  fftSize_le := h

def fftInput (p : FFTProcessor K) (inputFrame : List K) : List K :=
  List.zipWith (· * ·) inputFrame p.hannWindow ++
    List.replicate (p.frameSizePadded - p.frameSize) 0

def magnitude (maths : Elementary K) (z : K × K) : K := maths.sqrt (z.1 * z.1 + z.2 * z.2)

def computeFft (maths : Elementary K) (lib : RealFft K) (p : FFTProcessor K)
    (inputFrame : List K) : List K :=
  ((lib.r2c p.frameSizePadded (p.fftInput inputFrame)).take p.fftSize).map (magnitude maths)

def bin (lib : RealFft K) (p : FFTProcessor K) (sampleRate f : K) : K :=
  lib.bin p.frameSizePadded sampleRate f

theorem length_computeFft (maths : Elementary K) (lib : RealFft K) (p : FFTProcessor K)
    (inputFrame : List K) : (p.computeFft maths lib inputFrame).length = p.fftSize := by
  have hle := p.fftSize_le
  simp only [computeFft, List.length_map, List.length_take, lib.length_r2c]
  omega

theorem computeFft_getElem? (maths : Elementary K) (lib : RealFft K) (p : FFTProcessor K)
    (inputFrame : List K) {j : ℕ} (hj : j < p.fftSize) :
    (p.computeFft maths lib inputFrame)[j]? =
      (lib.r2c p.frameSizePadded (p.fftInput inputFrame))[j]?.map (magnitude maths) := by
  rw [computeFft, List.getElem?_map, List.getElem?_take_of_lt hj]

end FFTProcessor

structure FilterBankProcessor (K : Type) where
  bandsPerOctave : ℕ
  fftSize : ℕ
  sampleRate : ℕ
  fmin : K
  fmax : K
  normFilters : Bool
  uniqueFilters : Bool
  filters : List (List K)

namespace FilterBankProcessor

section Definitions

variable (maths : Elementary K) (b : FilterBankProcessor K)

def hzToBin (f : K) : K := f / b.sampleRate * b.fftSize

/-- The frequency that the filter bank takes a bin for. -/
def binToHz (j : ℕ) : K := j * b.sampleRate / b.fftSize

def center (i : ℕ) : K := b.fmin * maths.exp2 (i / b.bandsPerOctave)

variable [FloorRing K]

def numFilters : ℕ := ⌊maths.log2 (b.fmax / b.fmin) * b.bandsPerOctave⌋.toNat

/-- A filter before its normalisation, from three neighbouring centers. -/
def weights (i : ℕ) : List K :=
  let l := b.hzToBin (b.center maths i)
  let c := b.hzToBin (b.center maths (i + 1))
  let r := b.hzToBin (b.center maths (i + 2))
  (List.range (b.fftSize / 2 + 1)).map fun (j : ℕ) ↦
    if ⌈l⌉ ≤ (j : ℤ) ∧ (j : ℤ) < ⌈c⌉ then (j - l) / (c - l)
    else if ⌈c⌉ ≤ (j : ℤ) ∧ (j : ℤ) < ⌈r⌉ then (r - j) / (r - c)
    else 0

def normalised (filt : List K) : List K :=
  if 0 < filt.sum then filt.map (· / filt.sum) else filt

def buildFilters : FilterBankProcessor K :=
  { b with
    filters := (List.range (b.numFilters maths)).map fun i ↦
      if b.normFilters then normalised (b.weights maths i) else b.weights maths i }

def new (bandsPerOctave fftSize sampleRate : ℕ) (fmin fmax : K)
    (normFilters uniqueFilters : Bool) : FilterBankProcessor K :=
  buildFilters maths {
    bandsPerOctave := bandsPerOctave
    fftSize := fftSize
    sampleRate := sampleRate
    fmin := fmin
    fmax := fmax
    normFilters := normFilters
    uniqueFilters := uniqueFilters
    filters := [] }

def apply (spectrum : List K) : List K :=
  b.filters.map fun filt ↦ (List.zipWith (· * ·) spectrum filt).sum

def numBands : ℕ := b.filters.length

end Definitions

end FilterBankProcessor

section Elementary

variable [IsStrictOrderedRing K] (maths : Elementary K)

namespace Elementary

theorem exp2_zero : maths.exp2 0 = 1 := by
  have h := maths.exp2_add 0 1
  rw [zero_add, maths.exp2_one] at h
  linarith

theorem exp2_pos (x : K) : 0 < maths.exp2 x := by
  have hinv : maths.exp2 x * maths.exp2 (-x) = 1 := by
    rw [← maths.exp2_add, add_neg_cancel, maths.exp2_zero]
  have hsquare : maths.exp2 x = maths.exp2 (x / 2) * maths.exp2 (x / 2) := by
    rw [← maths.exp2_add, add_halves]
  have hne : maths.exp2 x ≠ 0 := left_ne_zero_of_mul_eq_one hinv
  exact lt_of_le_of_ne (hsquare ▸ mul_self_nonneg _) hne.symm

theorem exp2_pow (x : K) (n : ℕ) : maths.exp2 x ^ n = maths.exp2 (n * x) := by
  induction n with
  | zero => simp only [pow_zero, Nat.cast_zero, zero_mul, maths.exp2_zero]
  | succ n ih => rw [pow_succ, ih, ← maths.exp2_add, Nat.cast_succ, add_one_mul]

theorem exp2_natCast (n : ℕ) : maths.exp2 n = 2 ^ n := by
  rw [← maths.exp2_one, maths.exp2_pow, mul_one]

end Elementary

end Elementary

namespace FilterBankProcessor

section Centers

variable [IsStrictOrderedRing K] {maths : Elementary K} {b : FilterBankProcessor K}

theorem center_pos (hfmin : 0 < b.fmin) (i : ℕ) : 0 < b.center maths i :=
  mul_pos hfmin (maths.exp2_pos _)

theorem center_lt_center (hfmin : 0 < b.fmin) (hbands : 0 < b.bandsPerOctave) {i j : ℕ}
    (h : i < j) : b.center maths i < b.center maths j := by
  have hcast : (0 : K) < b.bandsPerOctave := Nat.cast_pos.mpr hbands
  have hexp : (i : K) / b.bandsPerOctave < j / b.bandsPerOctave :=
    div_lt_div_of_pos_right (Nat.cast_lt.mpr h) hcast
  exact mul_lt_mul_of_pos_left (maths.exp2_strictMono hexp) hfmin

omit [IsStrictOrderedRing K] in
theorem center_add (i k : ℕ) :
    b.center maths (i + k) = b.center maths i * maths.exp2 (k / b.bandsPerOctave) := by
  simp only [center, Nat.cast_add, add_div, maths.exp2_add, mul_assoc]

end Centers

section Weights

variable [FloorRing K] [IsStrictOrderedRing K] {maths : Elementary K} {b : FilterBankProcessor K}

omit [IsStrictOrderedRing K] in
theorem length_weights (i : ℕ) : (b.weights maths i).length = b.fftSize / 2 + 1 := by
  simp only [weights, List.length_map, List.length_range]

theorem weights_getD (hrate : 0 < b.sampleRate) (hsize : 0 < b.fftSize) (i j : ℕ) :
    (b.weights maths i).getD j 0 =
      if j < b.fftSize / 2 + 1 then
        triangle (b.center maths i) (b.center maths (i + 1)) (b.center maths (i + 2)) (b.binToHz j)
      else 0 := by
  have hrate' : (0 : K) < b.sampleRate := Nat.cast_pos.mpr hrate
  have hsize' : (0 : K) < b.fftSize := Nat.cast_pos.mpr hsize
  by_cases hj : j < b.fftSize / 2 + 1
  · have hscale : ∀ f, b.hzToBin f = b.fftSize / b.sampleRate * f := fun f ↦ by
      rw [hzToBin]
      ring
    have hbin : (j : K) = b.fftSize / b.sampleRate * b.binToHz j := by
      rw [binToHz]
      field_simp
    rw [if_pos hj, List.getD_eq_getElem?_getD, weights, List.getElem?_map, List.getElem?_range hj,
      Option.map_some, Option.getD_some, triangle_natCast, hbin, hscale, hscale, hscale,
      triangle_mul (div_pos hsize' hrate')]
  · rw [if_neg hj, List.getD_eq_getElem?_getD, List.getElem?_eq_none, Option.getD_none]
    rw [length_weights]
    omega

omit [FloorRing K] [IsStrictOrderedRing K] in
theorem length_normalised (filt : List K) : (normalised filt).length = filt.length := by
  rw [normalised]
  split_ifs
  · exact List.length_map _
  · rfl

omit [IsStrictOrderedRing K] in
theorem length_of_mem_filters {filt : List K} (h : filt ∈ (b.buildFilters maths).filters) :
    filt.length = b.fftSize / 2 + 1 := by
  obtain ⟨i, _, rfl⟩ := List.mem_map.mp h
  split_ifs
  · rw [length_normalised, length_weights]
  · exact length_weights i

omit [FloorRing K] [LinearOrder K] [IsStrictOrderedRing K] in
theorem apply_take {n : ℕ} (h : ∀ filt ∈ b.filters, filt.length ≤ n) (spectrum : List K) :
    b.apply (spectrum.take n) = b.apply spectrum := by
  apply List.map_congr_left
  intro filt hfilt
  have hlen : (List.zipWith (· * ·) spectrum filt).length ≤ n := by
    rw [List.length_zipWith]
    exact (min_le_right _ _).trans (h filt hfilt)
  have htake : (List.zipWith (· * ·) spectrum filt).take n =
      List.zipWith (· * ·) (spectrum.take n) (filt.take n) := List.take_zipWith
  rw [List.take_of_length_le hlen, List.take_of_length_le (h filt hfilt)] at htake
  rw [htake]

end Weights

end FilterBankProcessor

section Wiring

variable [FloorRing K] (maths : Elementary K) (lib : RealFft K)

def frameSizePow2 : ℕ := 2048

def fftProcessor : FFTProcessor K := .new maths frameLength fftSize frameSizePow2 (by decide)

def filterbankProcessor : FilterBankProcessor K := .new maths 16 fftSize 22050 30 11025 true true

variable [IsStrictOrderedRing K]

theorem numBands_filterbankProcessor : (filterbankProcessor maths).numBands = fbankSize / 2 := by
  have hpos : (0 : K) < 11025 / 30 := by norm_num
  have hlog := maths.exp2_log2 (11025 / 30) hpos
  have hpow : ∀ n : ℕ, maths.exp2 (n / 16) ^ 16 = 2 ^ n := fun n ↦ by
    rw [maths.exp2_pow, ← maths.exp2_natCast]
    congr 1
    push_cast
    ring
  have hlow : maths.exp2 ((136 : ℕ) / 16) ≤ maths.exp2 (maths.log2 (11025 / 30)) := by
    rw [hlog, ← pow_le_pow_iff_left₀ (maths.exp2_pos _).le hpos.le (by decide : 16 ≠ 0), hpow]
    norm_num
  have hhigh : maths.exp2 (maths.log2 (11025 / 30)) < maths.exp2 ((137 : ℕ) / 16) := by
    rw [hlog, ← pow_lt_pow_iff_left₀ hpos.le (maths.exp2_pos _).le (by decide : 16 ≠ 0), hpow]
    norm_num
  have hfloor : ⌊maths.log2 (11025 / 30) * (16 : ℕ)⌋ = 136 := by
    rw [Int.floor_eq_iff]
    have h₁ := maths.exp2_strictMono.le_iff_le.mp hlow
    have h₂ := maths.exp2_strictMono.lt_iff_lt.mp hhigh
    push_cast at h₁ h₂ ⊢
    constructor <;> linarith
  have hcount : (filterbankProcessor maths).numBands =
      ⌊maths.log2 (11025 / 30) * (16 : ℕ)⌋.toNat := by
    simp only [filterbankProcessor, FilterBankProcessor.new, FilterBankProcessor.buildFilters,
      FilterBankProcessor.numBands, FilterBankProcessor.numFilters, List.length_map,
      List.length_range]
  rw [hcount, hfloor]
  rfl

def spectralAnalysis : Analysis K where
  computeFft := (fftProcessor maths).computeFft maths lib
  apply := (filterbankProcessor maths).apply
  log10 := maths.log10
  length_apply spectrum := by
    rw [FilterBankProcessor.apply, List.length_map]
    exact numBands_filterbankProcessor maths

end Wiring

end BeatNet.Onnx
