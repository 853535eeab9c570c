import BeatNet.Library.PrefixSums
import BeatNet.Onnx.Bins
import Mathlib.Data.List.GetD
import Mathlib.Data.List.Nodup

namespace BeatNet.Onnx

open Library.PrefixSums Library.Triangles

section Sums

variable {K : Type} [Field K] [LinearOrder K] {w : List K} {j : ℕ}

omit [LinearOrder K] in
theorem sum_of_getD_eq_zero (h : ∀ k ≠ j, w.getD k 0 = 0) : w.sum = w.getD j 0 := by
  induction w generalizing j with
  | nil => rfl
  | cons x w ih =>
    rw [List.sum_cons]
    cases j with
    | zero =>
      have hzero := ih (j := w.length) fun k _ ↦ h (k + 1) k.succ_ne_zero
      rw [hzero, List.getD_eq_default _ _ le_rfl, add_zero]
      rfl
    | succ j =>
      have hx : x = 0 := h 0 j.succ_ne_zero.symm
      rw [hx, zero_add, ih fun k hk ↦ h (k + 1) (Nat.succ_ne_succ_iff.mpr hk)]
      rfl

theorem normalised_getD (hsum : 0 < w.sum) (j : ℕ) :
    (FilterBankProcessor.normalised w).getD j 0 = w.getD j 0 / w.sum := by
  rw [FilterBankProcessor.normalised, if_pos hsum]
  by_cases hj : j < w.length
  · rw [List.getD_eq_getElem _ _ (by rwa [List.length_map]), List.getD_eq_getElem _ _ hj,
      List.getElem_map]
  · have hle := not_lt.mp hj
    rw [List.getD_eq_default _ _ hle, List.getD_eq_default _ _ (by rwa [List.length_map]), zero_div]

variable [IsStrictOrderedRing K]

theorem sum_pos_iff (hnonneg : ∀ x ∈ w, 0 ≤ x) : 0 < w.sum ↔ ∃ j, 0 < w.getD j 0 := by
  rw [sum_pos_iff_exists hnonneg]
  apply Iff.intro
  · intro ⟨x, hx, hpos⟩
    obtain ⟨j, hj, rfl⟩ := List.getElem_of_mem hx
    exact ⟨j, by rwa [List.getD_eq_getElem _ _ hj]⟩
  · intro ⟨j, hpos⟩
    by_cases hj : j < w.length
    · rw [List.getD_eq_getElem _ _ hj] at hpos
      exact ⟨_, List.getElem_mem hj, hpos⟩
    · rw [List.getD_eq_default _ _ (not_lt.mp hj)] at hpos
      exact absurd hpos (lt_irrefl 0)

theorem sum_normalised_iff :
    (FilterBankProcessor.normalised w).sum = 1 ↔ 0 < w.sum := by
  rw [FilterBankProcessor.normalised]
  by_cases hsum : 0 < w.sum
  · rw [if_pos hsum]
    simp only [div_eq_mul_inv, List.sum_map_mul_right, List.map_id', mul_inv_cancel₀ hsum.ne', hsum]
  · rw [if_neg hsum]
    exact ⟨fun hone ↦ hone ▸ zero_lt_one, fun h ↦ absurd h hsum⟩

end Sums

namespace FilterBankProcessor

variable {K : Type} [Field K] [LinearOrder K] [FloorRing K] [IsStrictOrderedRing K]

def Covers (maths : Elementary K) (b : FilterBankProcessor K) (i j : ℕ) : Prop :=
  j < b.fftSize / 2 + 1 ∧ b.center maths i < b.binToHz j ∧ b.binToHz j < b.center maths (i + 2)

structure Configured (b : FilterBankProcessor K) : Prop where
  fmin : 0 < b.fmin
  bands : 0 < b.bandsPerOctave
  rate : 0 < b.sampleRate
  size : 0 < b.fftSize

variable {maths : Elementary K} {b : FilterBankProcessor K} {i j k : ℕ}

omit [FloorRing K] in
theorem binToHz_lt_binToHz (hrate : 0 < b.sampleRate) (hsize : 0 < b.fftSize) :
    b.binToHz j < b.binToHz k ↔ j < k := by
  have hrate' : (0 : K) < b.sampleRate := Nat.cast_pos.mpr hrate
  have hsize' : (0 : K) < b.fftSize := Nat.cast_pos.mpr hsize
  rw [binToHz, binToHz, div_lt_div_iff_of_pos_right hsize', mul_lt_mul_iff_left₀ hrate',
    Nat.cast_lt]

theorem Configured.weights_pos_iff (hb : b.Configured) :
    0 < (b.weights maths i).getD j 0 ↔ b.Covers maths i j := by
  rw [weights_getD hb.rate hb.size]
  by_cases hj : j < b.fftSize / 2 + 1
  · rw [if_pos hj, triangle_pos_iff (center_lt_center hb.fmin hb.bands i.lt_succ_self)
      (center_lt_center hb.fmin hb.bands (i + 1).lt_succ_self)]
    simp only [Covers, hj, true_and]
  · rw [if_neg hj]
    exact ⟨fun h ↦ absurd h (lt_irrefl 0), fun h ↦ absurd h.1 hj⟩

theorem Configured.weights_nonneg (hb : b.Configured) : ∀ x ∈ b.weights maths i, 0 ≤ x := by
  intro x hx
  obtain ⟨j, hj, rfl⟩ := List.getElem_of_mem hx
  rw [← List.getD_eq_getElem _ 0, weights_getD hb.rate hb.size]
  split_ifs
  · exact triangle_nonneg (center_lt_center hb.fmin hb.bands i.lt_succ_self)
      (center_lt_center hb.fmin hb.bands (i + 1).lt_succ_self)
  · exact le_rfl

theorem Configured.weights_eq_zero (hb : b.Configured) (h : ¬ b.Covers maths i j) :
    (b.weights maths i).getD j 0 = 0 := by
  have hle := not_lt.mp (mt hb.weights_pos_iff.mp h)
  by_cases hj : j < (b.weights maths i).length
  · have hmem := hb.weights_nonneg _ (List.getElem_mem hj)
    rw [← List.getD_eq_getElem _ 0] at hmem
    exact le_antisymm hle hmem
  · exact List.getD_eq_default _ _ (by omega)

theorem Configured.sum_pos_iff (hb : b.Configured) :
    0 < (b.weights maths i).sum ↔ ∃ j, b.Covers maths i j := by
  rw [Onnx.sum_pos_iff hb.weights_nonneg]
  simp only [hb.weights_pos_iff]

omit [FloorRing K] in
theorem Configured.eq_succ_of_covers (hb : b.Configured) (hi : b.Covers maths i j)
    (hk : b.Covers maths k j) (hlt : i < k) : k = i + 1 := by
  by_contra hne
  rcases Nat.lt_or_ge (i + 2) k with hfar | hfar
  · exact lt_asymm (hi.2.2.trans (center_lt_center hb.fmin hb.bands hfar)) hk.2.1
  · obtain rfl : k = i + 2 := by omega
    exact lt_asymm hi.2.2 hk.2.1

theorem Configured.weights_lt (hb : b.Configured) (hj : b.Covers maths (i + 1) j)
    (hk : b.Covers maths i k) (hlt : j < k) :
    (b.weights maths i).getD k 0 < (b.weights maths i).getD j 0 ∧
      (b.weights maths (i + 1)).getD j 0 < (b.weights maths (i + 1)).getD k 0 := by
  have hhz := (binToHz_lt_binToHz hb.rate hb.size).mpr hlt
  simp only [weights_getD hb.rate hb.size, if_pos hj.1, if_pos hk.1]
  exact ⟨triangle_lt_of_fall hj.2.1.le hhz hk.2.2, triangle_lt_of_rise hj.2.1.le hhz hk.2.2⟩

theorem Configured.normalised_eq_iff (hb : b.Configured) (hlt : i < k)
    (hi : ∃ j, b.Covers maths i j) (hk : ∃ j, b.Covers maths k j) :
    normalised (b.weights maths i) = normalised (b.weights maths k) ↔
      k = i + 1 ∧ ∃ j, ∀ m, (b.Covers maths i m ↔ m = j) ∧ (b.Covers maths k m ↔ m = j) := by
  have hsumi := hb.sum_pos_iff.mpr hi
  have hsumk := hb.sum_pos_iff.mpr hk
  apply Iff.intro
  · intro heq
    have hquot : ∀ m, (b.weights maths i).getD m 0 / (b.weights maths i).sum =
        (b.weights maths k).getD m 0 / (b.weights maths k).sum := fun m ↦ by
      rw [← normalised_getD hsumi, ← normalised_getD hsumk, heq]
    have hcovers : ∀ m, b.Covers maths i m ↔ b.Covers maths k m := fun m ↦ by
      rw [← hb.weights_pos_iff, ← hb.weights_pos_iff, ← div_pos_iff_of_pos_right hsumi, hquot,
        div_pos_iff_of_pos_right hsumk]
    obtain ⟨j, hj⟩ := hi
    obtain rfl := hb.eq_succ_of_covers hj ((hcovers j).mp hj) hlt
    have hapart : ∀ m n, b.Covers maths i m → b.Covers maths i n → ¬ m < n := by
      intro m n hm hn hmn
      obtain ⟨hfall, hrise⟩ := hb.weights_lt ((hcovers m).mp hm) hn hmn
      have hfall := div_lt_div_of_pos_right hfall hsumi
      have hrise := div_lt_div_of_pos_right hrise hsumk
      rw [hquot, hquot] at hfall
      exact lt_asymm hfall hrise
    have honly : ∀ m, b.Covers maths i m ↔ m = j := fun m ↦ by
      apply Iff.intro
      · intro hm
        exact le_antisymm (not_lt.mp (hapart j m hj hm)) (not_lt.mp (hapart m j hm hj))
      · rintro rfl
        exact hj
    exact ⟨rfl, j, fun m ↦ ⟨honly m, (hcovers m).symm.trans (honly m)⟩⟩
  · rintro ⟨_, j, honly⟩
    have hsingle : ∀ n, (∀ m, b.Covers maths n m ↔ m = j) →
        ∀ m, (normalised (b.weights maths n)).getD m 0 = if m = j then 1 else 0 := by
      intro n hn m
      have hsum := hb.sum_pos_iff.mpr ⟨j, (hn j).mpr rfl⟩
      have heq := sum_of_getD_eq_zero fun m hm ↦ hb.weights_eq_zero (mt (hn m).mp hm)
      rw [normalised_getD hsum]
      by_cases hm : m = j
      · rw [if_pos hm, hm, ← heq, div_self hsum.ne']
      · rw [if_neg hm, hb.weights_eq_zero (mt (hn m).mp hm), zero_div]
    apply List.ext_getElem
    · simp only [length_normalised, length_weights]
    · intro m hm hm'
      rw [← List.getD_eq_getElem _ 0 hm, ← List.getD_eq_getElem _ 0 hm',
        hsingle i fun m ↦ (honly m).1, hsingle k fun m ↦ (honly m).2]

theorem Configured.sum_normalised_iff (hb : b.Configured) :
    (normalised (b.weights maths i)).sum = 1 ↔ ∃ j, b.Covers maths i j := by
  rw [Onnx.sum_normalised_iff, hb.sum_pos_iff]

omit [IsStrictOrderedRing K] in
theorem filters_buildFilters (hnorm : b.normFilters = true) :
    (b.buildFilters maths).filters =
      (List.range (b.numFilters maths)).map fun i ↦ normalised (b.weights maths i) := by
  simp only [buildFilters, hnorm, if_true]

end FilterBankProcessor

section Usable

open FilterBankProcessor

variable {K : Type} [Field K] [LinearOrder K] [FloorRing K] [IsStrictOrderedRing K]
  {maths : Elementary K} {b : FilterBankProcessor K}

theorem configured_of_le (hfmin : 0 < b.fmin) (hmin : b.fmin < b.fmax)
    (hmax : b.fmax ≤ b.sampleRate / 2) (hbands : 1 ≤ b.bandsPerOctave) (hsize : 2 ≤ b.fftSize) :
    b.Configured := by
  refine ⟨hfmin, hbands, ?_, by omega⟩
  have hrate : (0 : K) < b.sampleRate / 2 := hfmin.trans (hmin.trans_le hmax)
  exact Nat.cast_pos.mp (by linarith : (0 : K) < b.sampleRate)

/-- `uniqueFilters` is never read: every filter adds up to one and no two are alike just when every
band has a bin, and no two neighbouring bands have one and the same single bin. -/
theorem usable_bands (hfmin : 0 < b.fmin) (hmin : b.fmin < b.fmax)
    (hmax : b.fmax ≤ b.sampleRate / 2) (hbands : 1 ≤ b.bandsPerOctave) (hsize : 2 ≤ b.fftSize)
    (hnorm : b.normFilters = true) :
    ((∀ filt ∈ (b.buildFilters maths).filters, filt.sum = 1) ∧
        (b.buildFilters maths).filters.Nodup) ↔
      (∀ i < b.numFilters maths, ∃ j, b.Covers maths i j) ∧
        ∀ i, i + 1 < b.numFilters maths → ¬ ∃ j, ∀ m,
          (b.Covers maths i m ↔ m = j) ∧ (b.Covers maths (i + 1) m ↔ m = j) := by
  have hb := configured_of_le hfmin hmin hmax hbands hsize
  have hsums : (∀ filt ∈ (b.buildFilters maths).filters, filt.sum = 1) ↔
      ∀ i < b.numFilters maths, ∃ j, b.Covers maths i j := by
    simp only [filters_buildFilters hnorm, List.forall_mem_map, List.mem_range,
      hb.sum_normalised_iff]
  rw [hsums, and_congr_right_iff]
  intro hcovered
  rw [filters_buildFilters hnorm, List.nodup_map_iff_inj_on List.nodup_range]
  simp only [List.mem_range]
  apply Iff.intro
  · intro hinj i hi hsame
    have heq := (hb.normalised_eq_iff i.lt_succ_self (hcovered i (by omega))
      (hcovered _ hi)).mpr ⟨rfl, hsame⟩
    exact i.succ_ne_self (hinj i (by omega) _ hi heq).symm
  · intro hnone i hi k hk heq
    by_contra hne
    rcases Nat.lt_or_gt_of_ne hne with hlt | hlt
    · obtain ⟨rfl, hsame⟩ :=
        (hb.normalised_eq_iff hlt (hcovered i hi) (hcovered k hk)).mp heq
      exact hnone i hk hsame
    · obtain ⟨rfl, hsame⟩ :=
        (hb.normalised_eq_iff hlt (hcovered k hk) (hcovered i hi)).mp heq.symm
      exact hnone k hi hsame

end Usable

section Real

open FilterBankProcessor

noncomputable def octaveBank : FilterBankProcessor ℝ where
  bandsPerOctave := 1
  fftSize := 8
  sampleRate := 8
  fmin := 1
  fmax := 4
  normFilters := true
  uniqueFilters := true
  filters := []

theorem center_octaveBank (i : ℕ) : octaveBank.center realElementary i = 2 ^ i := by
  simp only [center, octaveBank, Nat.cast_one, div_one, one_mul, Elementary.exp2_natCast]

theorem binToHz_octaveBank (j : ℕ) : octaveBank.binToHz j = j :=
  mul_div_cancel_right₀ _ (by norm_num [octaveBank])

theorem numFilters_octaveBank : octaveBank.numFilters realElementary = 2 := by
  have hlog : realElementary.log2 4 = (2 : ℕ) := by
    apply realElementary.exp2_strictMono.injective
    rw [realElementary.exp2_log2 4 (by norm_num), Elementary.exp2_natCast]
    norm_num
  simp only [numFilters, octaveBank, div_one, hlog, Nat.cast_one, mul_one, Int.floor_natCast,
    Int.toNat_natCast]

theorem usable_bands_octaves :
    (∀ filt ∈ (octaveBank.buildFilters realElementary).filters, filt.sum = 1) ∧
      (octaveBank.buildFilters realElementary).filters.Nodup := by
  refine (usable_bands (by norm_num [octaveBank]) (by norm_num [octaveBank])
    (by norm_num [octaveBank]) le_rfl (by decide) rfl).mpr ?_
  simp only [numFilters_octaveBank, Covers, center_octaveBank, binToHz_octaveBank]
  refine ⟨fun i hi ↦ ⟨3, ?_⟩, fun i hi ⟨j, hj⟩ ↦ ?_⟩
  · obtain rfl | rfl : i = 0 ∨ i = 1 := by omega
    · norm_num [octaveBank]
    · norm_num [octaveBank]
  · obtain rfl : i = 0 := by omega
    have htwo := (hj 2).1.mp (by norm_num [octaveBank])
    have hthree := (hj 3).1.mp (by norm_num [octaveBank])
    omega

/-- The second band of the bank lies between two bins. -/
theorem not_covers_filterbankProcessor (j : ℕ) :
    ¬ (filterbankProcessor realElementary).Covers realElementary 1 j := by
  rintro ⟨_, hlow, hhigh⟩
  have hcenter : ∀ i : ℕ, (filterbankProcessor realElementary).center realElementary i =
      30 * realElementary.exp2 (i / (16 : ℕ)) := fun _ ↦ rfl
  have hhz : (filterbankProcessor realElementary).binToHz j = j * (22050 : ℕ) / (706 : ℕ) := rfl
  have hpos := realElementary.exp2_pos ((1 : ℕ) / (16 : ℕ))
  have hfirst : 22050 / 706 / 30 < realElementary.exp2 ((1 : ℕ) / (16 : ℕ)) := by
    rw [← pow_lt_pow_iff_left₀ (by norm_num) hpos.le (by decide : 16 ≠ 0), realElementary.exp2_pow]
    have hone : ((16 : ℕ) : ℝ) * ((1 : ℕ) / (16 : ℕ)) = 1 := by norm_num
    rw [hone, realElementary.exp2_one]
    norm_num
  have hlast : realElementary.exp2 ((3 : ℕ) / (16 : ℕ)) < realElementary.exp2 1 :=
    realElementary.exp2_strictMono (by norm_num)
  rw [realElementary.exp2_one] at hlast
  rw [hcenter, hhz] at hlow hhigh
  push_cast at hlow hhigh hfirst hlast
  have hj : 1 < j := by
    have hcast : (1 : ℝ) < j := by linarith
    exact_mod_cast hcast
  have hcast : (2 : ℝ) ≤ j := by exact_mod_cast hj
  linarith

theorem shipped_bands_unusable :
    ¬ ∀ b : FilterBankProcessor ℝ, 0 < b.fmin → b.fmin < b.fmax → b.fmax ≤ b.sampleRate / 2 →
      1 ≤ b.bandsPerOctave → 2 ≤ b.fftSize → b.normFilters = true → b.uniqueFilters = true →
        (∀ filt ∈ (b.buildFilters realElementary).filters, filt.sum = 1) ∧
          (b.buildFilters realElementary).filters.Nodup := by
  intro h
  have hfmin : 0 < (filterbankProcessor realElementary).fmin := (by norm_num : (0 : ℝ) < 30)
  have hmin : (filterbankProcessor realElementary).fmin <
      (filterbankProcessor realElementary).fmax :=
    (by norm_num : (30 : ℝ) < 11025)
  have hmax : (filterbankProcessor realElementary).fmax ≤
      (filterbankProcessor realElementary).sampleRate / 2 :=
    (by norm_num : (11025 : ℝ) ≤ (22050 : ℕ) / 2)
  have hbands : 1 ≤ (filterbankProcessor realElementary).bandsPerOctave := (by decide : 1 ≤ 16)
  have hsize : 2 ≤ (filterbankProcessor realElementary).fftSize := (by decide : 2 ≤ fftSize)
  have hcount : (filterbankProcessor realElementary).numFilters realElementary = 136 := by
    have hbank := numBands_filterbankProcessor realElementary
    rw [numBands, filterbankProcessor, new, buildFilters, List.length_map,
      List.length_range] at hbank
    exact hbank
  have hsums := (h _ hfmin hmin hmax hbands hsize rfl rfl).1
  rw [filters_buildFilters rfl, List.forall_mem_map] at hsums
  have hsum := hsums 1 (List.mem_range.mpr (by rw [hcount]; decide))
  rw [(configured_of_le hfmin hmin hmax hbands hsize).sum_normalised_iff] at hsum
  obtain ⟨j, hj⟩ := hsum
  exact not_covers_filterbankProcessor j hj

end Real

end BeatNet.Onnx
