import BeatNet.Library.Effects
import BeatNet.Onnx.FilterBank
import Mathlib.Data.Rat.Floor

namespace BeatNet.Onnx

open FilterBankProcessor Library.Triangles Library.Effects

inductive FilterFault
  | divisionByZero | outOfRange
  deriving DecidableEq

section Lists

variable {α β : Type} {l : List α}

theorem mapIdx_congr {f g : ℕ → α → β} (h : ∀ j < l.length, f j = g j) :
    l.mapIdx f = l.mapIdx g := by
  rw [List.mapIdx_eq_mapIdx_iff]
  intro j hj
  rw [h j hj]

theorem mapIdx_of_not {p : ℕ → Prop} [DecidablePred p] {f : ℕ → α}
    (h : ∀ j < l.length, ¬ p j) : (l.mapIdx fun j x ↦ if p j then f j else x) = l := by
  rw [mapIdx_congr (g := fun _ x ↦ x) fun j hj ↦ by simp only [if_neg (h j hj)]]
  simp [List.mapIdx_eq_zipIdx_map]

theorem le_of_pairwise [Preorder α] (hsorted : l.Pairwise (· ≤ ·)) {i j : ℕ} {x y : α}
    (hij : i < j) (hi : l[i]? = some x) (hj : l[j]? = some y) : x ≤ y := by
  obtain ⟨_, rfl⟩ := List.getElem?_eq_some_iff.mp hi
  obtain ⟨_, rfl⟩ := List.getElem?_eq_some_iff.mp hj
  exact List.pairwise_iff_getElem.mp hsorted i j _ _ hij

end Lists

section Loops

variable {K : Type} [Field K] [LinearOrder K]

def assign (j : ℤ) (rise run : K) (filt : List K) : Except FilterFault (List K) :=
  if run = 0 then .error .divisionByZero
  else if 0 ≤ j ∧ j < filt.length then .ok (filt.set j.toNat (rise / run))
  else .error .outOfRange

/-- `for (int j = lower; j < upper && j < filt.size(); ++j)` -/
def slope (lower upper : ℤ) (rise : K → K) (run : K) (filt : List K) :
    Except FilterFault (List K) :=
  -- against a size `j` is compared without its sign
  if lower < 0 then .ok filt
  else ((List.range (min upper filt.length - lower).toNat).map fun (k : ℕ) ↦ lower + k).foldlM
    (fun filt j ↦ assign j (rise j) run filt) filt

variable [FloorRing K]

def buildFilter (size : ℕ) (l c r : K) : Except FilterFault (List K) := do
  let filt ← slope ⌈l⌉ ⌈c⌉ (· - l) (c - l) (List.replicate size 0)
  slope ⌈c⌉ ⌈r⌉ (r - ·) (r - c) filt

def buildFrom (size : ℕ) : List K → Except FilterFault (List (List K))
  | l :: c :: r :: bins => do
    let filt ← buildFilter size l c r
    let filters ← buildFrom size (c :: r :: bins)
    return filt :: filters
  | _ => .ok []

/-- The loop of `buildFilters` over any centers. -/
def FilterBankProcessor.filtersFrom (b : FilterBankProcessor K) (centers : List K) :
    Except FilterFault (List (List K)) := do
  let filters ← buildFrom (b.fftSize / 2 + 1) (centers.map b.hzToBin)
  return filters.map fun filt ↦ if b.normFilters then normalised filt else filt

omit [FloorRing K] in
theorem assign_ok {j : ℕ} {rise run : K} {filt : List K} (hrun : run ≠ 0) (hj : j < filt.length) :
    assign j rise run filt = .ok (filt.set j (rise / run)) := by
  rw [assign, if_neg hrun, if_pos ⟨Int.natCast_nonneg j, Int.ofNat_lt.mpr hj⟩, Int.toNat_natCast]

omit [FloorRing K] in
theorem foldlM_assign {m n : ℕ} {rise : K → K} {run : K} {filt : List K}
    (hrun : 0 < n → run ≠ 0) (hn : 0 < n → m + n ≤ filt.length) :
    ((List.range n).map fun (k : ℕ) ↦ (m : ℤ) + k).foldlM
        (fun filt j ↦ assign j (rise j) run filt) filt =
      .ok (filt.mapIdx fun j x ↦ if m ≤ j ∧ j < m + n then rise j / run else x) := by
  induction n with
  | zero =>
    rw [mapIdx_of_not fun j _ ↦ by omega]
    rfl
  | succ n ih =>
    have hj : (m : ℤ) + n = ((m + n : ℕ) : ℤ) := (Nat.cast_add m n).symm
    have hlen := hn n.succ_pos
    rw [List.range_succ, List.map_append, List.foldlM_append,
      ih (fun _ ↦ hrun n.succ_pos) fun _ ↦ by omega]
    change assign ((m : ℤ) + n) (rise ((m : ℤ) + n : ℤ)) run _ >>= pure = _
    rw [bind_pure, hj, Int.cast_natCast,
      assign_ok (hrun n.succ_pos) (by rw [List.length_mapIdx]; omega)]
    congr 1
    apply List.ext_getElem?
    intro j
    rw [List.getElem?_set, List.getElem?_mapIdx, List.getElem?_mapIdx, List.length_mapIdx]
    by_cases heq : m + n = j
    · subst heq
      have hlt : m + n < filt.length := hlen
      simp [hlt]
    · have hiff : m ≤ j ∧ j < m + n ↔ m ≤ j ∧ j < m + (n + 1) := by omega
      simp only [if_neg heq, hiff]

omit [FloorRing K] in
theorem slope_eq {lower upper : ℤ} {rise : K → K} {run : K} {filt : List K} (hlower : 0 ≤ lower)
    (hrun : lower < upper → run ≠ 0) :
    slope lower upper rise run filt =
      .ok (filt.mapIdx fun (j : ℕ) x ↦
        if lower ≤ (j : ℤ) ∧ (j : ℤ) < upper then rise j / run else x) := by
  obtain ⟨m, rfl⟩ := Int.eq_ofNat_of_zero_le hlower
  rw [slope, if_neg (not_lt.mpr hlower),
    foldlM_assign (fun hpos ↦ hrun (by omega)) fun _ ↦ by omega]
  congr 1
  apply mapIdx_congr
  intro j hj
  have hiff : m ≤ j ∧ j < m + (min upper filt.length - m).toNat ↔
      (m : ℤ) ≤ (j : ℤ) ∧ (j : ℤ) < upper := by omega
  simp only [hiff]

def profiles (size : ℕ) : List K → List (List K)
  | l :: c :: r :: bins =>
    ((List.range size).map fun (j : ℕ) ↦ triangle l c r j) :: profiles size (c :: r :: bins)
  | _ => []

omit [FloorRing K] in
theorem length_profiles (size : ℕ) : ∀ bins : List K, (profiles size bins).length = bins.length - 2
  | [] => rfl
  | [_] => rfl
  | [_, _] => rfl
  | _ :: c :: r :: bins => by
    rw [profiles, List.length_cons, length_profiles size (c :: r :: bins)]
    rfl

omit [FloorRing K] in
theorem profiles_getElem? {size i : ℕ} {bins filt : List K}
    (h : (profiles size bins)[i]? = some filt) :
    ∃ l c r, bins[i]? = some l ∧ bins[i + 1]? = some c ∧ bins[i + 2]? = some r ∧
      filt = (List.range size).map fun (j : ℕ) ↦ triangle l c r j := by
  fun_induction profiles size bins generalizing i with
  | case1 l c r bins ih =>
    cases i with
    | zero =>
      cases h
      exact ⟨l, c, r, rfl, rfl, rfl, rfl⟩
    | succ i => exact ih h
  | case2 => cases h

omit [FloorRing K] in
theorem map_getD_profiles {size j : ℕ} {bins : List K} (hj : j < size) :
    (profiles size bins).map (·.getD j 0) = heights bins j := by
  fun_induction profiles size bins with
  | case1 l c r bins ih =>
    have hhead : ((List.range size).map fun (k : ℕ) ↦ triangle l c r (k : K)).getD j 0 =
        triangle l c r j := by
      rw [List.getD_eq_getElem?_getD, List.getElem?_map, List.getElem?_range hj, Option.map_some,
        Option.getD_some]
    rw [List.map_cons, hhead, ih, heights]
  | case2 bins hno =>
    rw [heights]
    · rfl
    · exact hno

theorem sub_ne_zero_of_ceil_lt {l c : K} (h : ⌈l⌉ < ⌈c⌉) : c - l ≠ 0 := by
  intro heq
  rw [sub_eq_zero.mp heq] at h
  exact lt_irrefl _ h

theorem buildFilter_ok {size : ℕ} {l c r : K} (h0 : 0 ≤ l) (hl : l ≤ c) :
    buildFilter size l c r = .ok ((List.range size).map fun (j : ℕ) ↦ triangle l c r j) := by
  rw [buildFilter, slope_eq (Int.ceil_nonneg h0) sub_ne_zero_of_ceil_lt]
  change slope ⌈c⌉ ⌈r⌉ (r - ·) (r - c) _ = _
  rw [slope_eq (Int.ceil_nonneg (h0.trans hl)) sub_ne_zero_of_ceil_lt]
  congr 1
  apply List.ext_getElem?
  intro j
  rw [List.getElem?_mapIdx, List.getElem?_mapIdx, List.getElem?_replicate, List.getElem?_map]
  by_cases hj : j < size
  · simp only [hj, if_true, Option.map_some, List.getElem?_range hj, Int.ceil_le, Int.lt_ceil,
      Int.cast_natCast]
    by_cases hleft : l ≤ (j : K) ∧ (j : K) < c
    · have hnot : ¬ (c ≤ (j : K) ∧ (j : K) < r) := fun h ↦ not_lt.mpr h.1 hleft.2
      rw [triangle_of_rise hleft, if_neg hnot, if_pos hleft]
    · by_cases hright : c ≤ (j : K) ∧ (j : K) < r
      · rw [triangle_of_fall hright, if_pos hright]
      · rw [triangle_of_outside hleft hright, if_neg hright, if_neg hleft]
  · simp [hj]

theorem buildFrom_ok {size : ℕ} {bins : List K} (hsorted : bins.Pairwise (· ≤ ·))
    (hnonneg : ∀ b ∈ bins, 0 ≤ b) : buildFrom size bins = .ok (profiles size bins) := by
  fun_induction profiles size bins with
  | case1 l c r bins ih =>
    obtain ⟨hl, hrest⟩ := List.pairwise_cons.mp hsorted
    obtain ⟨hl0, hnonneg⟩ := List.forall_mem_cons.mp hnonneg
    rw [buildFrom, buildFilter_ok hl0 (hl c (by simp)), ih hrest hnonneg]
    rfl
  | case2 bins hno =>
    rw [buildFrom]
    exact hno

theorem filtersFrom_ok {b : FilterBankProcessor K} {centers : List K}
    (hsorted : (centers.map b.hzToBin).Pairwise (· ≤ ·))
    (hnonneg : ∀ x ∈ centers.map b.hzToBin, 0 ≤ x) :
    b.filtersFrom centers = .ok ((profiles (b.fftSize / 2 + 1) (centers.map b.hzToBin)).map
      fun filt ↦ if b.normFilters then normalised filt else filt) := by
  rw [FilterBankProcessor.filtersFrom, buildFrom_ok hsorted hnonneg]
  rfl

omit [FloorRing K] in
theorem profiles_map_range (size n : ℕ) (f : ℕ → K) :
    profiles size ((List.range (n + 2)).map f) =
      (List.range n).map fun i ↦ (List.range size).map fun (j : ℕ) ↦
        triangle (f i) (f (i + 1)) (f (i + 2)) j := by
  have hlen := length_profiles size ((List.range (n + 2)).map f)
  rw [List.length_map, List.length_range, Nat.add_sub_cancel] at hlen
  apply List.ext_getElem
  · rw [hlen, List.length_map, List.length_range]
  · intro i hi _
    obtain ⟨l, c, r, hl, hc, hr, hfilt⟩ := profiles_getElem? (List.getElem?_eq_getElem hi)
    have hat : ∀ k < n + 2, ((List.range (n + 2)).map f)[k]? = some (f k) := fun k hk ↦ by
      rw [List.getElem?_map, List.getElem?_range hk, Option.map_some]
    rw [hlen] at hi
    cases hl.symm.trans (hat i (by omega))
    cases hc.symm.trans (hat (i + 1) (by omega))
    cases hr.symm.trans (hat (i + 2) (by omega))
    rw [hfilt, List.getElem_map, List.getElem_range]

variable [IsStrictOrderedRing K]

omit [FloorRing K] in
theorem sum_heights_getElem? {bins : List K} (hsorted : bins.Pairwise (· ≤ ·)) {lower upper x : K}
    (hlower : bins[1]? = some lower) (hupper : bins[bins.length - 2]? = some upper)
    (hlow : lower ≤ x) (hhigh : x < upper) : (heights bins x).sum = 1 := by
  cases bins with
  | nil => cases hlower
  | cons l rest =>
    rcases List.eq_nil_or_concat rest with rfl | ⟨inner, top, rfl⟩
    · cases hlower
    · rw [List.concat_eq_append] at *
      cases inner with
      | nil =>
        have hle : upper ≤ lower := le_of_pairwise hsorted Nat.zero_lt_one hupper hlower
        exact absurd hhigh (not_lt.mpr (hle.trans hlow))
      | cons c inner =>
        refine sum_heights hsorted hlower ?_ hlow hhigh
        rw [List.getLast?_eq_getElem?, ← hupper]
        simp only [List.length_cons, List.length_append, List.length_nil, zero_add,
          Nat.add_sub_cancel]
        rw [show inner.length + 1 + 1 + 1 - 2 = inner.length + 1 by omega,
          List.getElem?_cons_succ, List.getElem?_append_left (by simp)]

theorem filtersFrom_centers {maths : Elementary K} {b : FilterBankProcessor K}
    (hfmin : 0 ≤ b.fmin) :
    b.filtersFrom ((List.range (b.numFilters maths + 2)).map (b.center maths)) =
      .ok (b.buildFilters maths).filters := by
  have hmono : ∀ i j : ℕ, i ≤ j → b.hzToBin (b.center maths i) ≤ b.hzToBin (b.center maths j) := by
    intro i j hij
    have hexp : (i : K) / b.bandsPerOctave ≤ j / b.bandsPerOctave :=
      div_le_div_of_nonneg_right (Nat.cast_le.mpr hij) (Nat.cast_nonneg _)
    have hcenter : b.center maths i ≤ b.center maths j :=
      mul_le_mul_of_nonneg_left (maths.exp2_strictMono.monotone hexp) hfmin
    exact mul_le_mul_of_nonneg_right
      (div_le_div_of_nonneg_right hcenter (Nat.cast_nonneg _)) (Nat.cast_nonneg _)
  have hnonneg : ∀ i, 0 ≤ b.hzToBin (b.center maths i) := fun i ↦
    mul_nonneg (div_nonneg (mul_nonneg hfmin (maths.exp2_pos _).le) (Nat.cast_nonneg _))
      (Nat.cast_nonneg _)
  have hcomp : ((List.range (b.numFilters maths + 2)).map (b.center maths)).map b.hzToBin =
      (List.range (b.numFilters maths + 2)).map fun i ↦ b.hzToBin (b.center maths i) :=
    List.map_map
  rw [filtersFrom_ok, hcomp, profiles_map_range, List.map_map, FilterBankProcessor.buildFilters]
  · congr 1
    apply List.map_congr_left
    intro i _
    simp only [Function.comp_apply, FilterBankProcessor.weights, triangle_natCast]
  · rw [hcomp, List.pairwise_map]
    exact List.pairwise_lt_range.imp fun hij ↦ hmono _ _ hij.le
  · rw [hcomp]
    intro x hx
    obtain ⟨i, _, rfl⟩ := List.mem_map.mp hx
    exact hnonneg i

/-- From sorted bins the loop builds its filters: no division by zero, no write outside. The
weights are between zero and one, they are zero outside the outer corners, and between the second
corner and the last but one those of all filters add up to one. At the centers of the processor the
filters are those that `buildFilters` makes. -/
theorem triangular_filters {b : FilterBankProcessor K} {centers : List K}
    (hnorm : b.normFilters = false) (hsorted : (centers.map b.hzToBin).Pairwise (· ≤ ·))
    (hnonneg : ∀ x ∈ centers.map b.hzToBin, 0 ≤ x) :
    ∃ filters, b.filtersFrom centers = .ok filters ∧ filters.length = centers.length - 2 ∧
      (∀ (i : ℕ) (filt : List K), filters[i]? = some filt → filt.length = b.fftSize / 2 + 1 ∧
        ∀ (l r : K) (j : ℕ) (w : K), (centers.map b.hzToBin)[i]? = some l →
          (centers.map b.hzToBin)[i + 2]? = some r → filt[j]? = some w →
            0 ≤ w ∧ w ≤ 1 ∧ (¬ (l ≤ j ∧ (j : K) < r) → w = 0)) ∧
      (∀ (lower upper : K) (j : ℕ), (centers.map b.hzToBin)[1]? = some lower →
        (centers.map b.hzToBin)[filters.length]? = some upper → j < b.fftSize / 2 + 1 →
          lower ≤ j → (j : K) < upper → (filters.map (·.getD j 0)).sum = 1) ∧
      ∀ maths : Elementary K, 0 ≤ b.fmin →
        centers = (List.range (b.numFilters maths + 2)).map (b.center maths) →
          filters = (b.buildFilters maths).filters := by
  have hok := filtersFrom_ok hsorted hnonneg
  have hlen := length_profiles (b.fftSize / 2 + 1) (centers.map b.hzToBin)
  have hcount : (centers.map b.hzToBin).length = centers.length := List.length_map _
  simp only [hnorm, Bool.false_eq_true, if_false, List.map_id'] at hok
  have hown : ∀ maths : Elementary K, 0 ≤ b.fmin →
      centers = (List.range (b.numFilters maths + 2)).map (b.center maths) →
        profiles (b.fftSize / 2 + 1) (centers.map b.hzToBin) = (b.buildFilters maths).filters := by
    intro maths hfmin hcenters
    have hbuild : b.filtersFrom ((List.range (b.numFilters maths + 2)).map (b.center maths)) =
        .ok (b.buildFilters maths).filters := filtersFrom_centers hfmin
    rw [← hcenters, hok] at hbuild
    exact Except.ok.inj hbuild
  generalize centers.map b.hzToBin = bins at *
  refine ⟨profiles (b.fftSize / 2 + 1) bins, hok, ?_, ?_, ?_, hown⟩
  · rw [hlen, hcount]
  · intro i filt hfilt
    obtain ⟨l, c, r, hl, hc, hr, rfl⟩ := profiles_getElem? hfilt
    refine ⟨by simp, fun l' r' j w hl' hr' hw ↦ ?_⟩
    cases hl.symm.trans hl'
    cases hr.symm.trans hr'
    have hlc : l ≤ c := le_of_pairwise hsorted i.lt_succ_self hl hc
    have hcr : c ≤ r := le_of_pairwise hsorted (i + 1).lt_succ_self hc hr
    obtain ⟨k, hk, rfl⟩ := Option.map_eq_some_iff.mp ((List.getElem?_map ..).symm.trans hw)
    obtain ⟨hk', rfl⟩ := List.getElem?_eq_some_iff.mp hk
    rw [List.getElem_range]
    exact triangle_bounds hlc hcr
  · intro lower upper j hlower hupper hj hlow hhigh
    rw [map_getD_profiles hj]
    exact sum_heights_getElem? hsorted hlower (hlen ▸ hupper) hlow hhigh

end Loops

def hertzBank : FilterBankProcessor ℚ where
  bandsPerOctave := 1
  fftSize := 8
  sampleRate := 8
  fmin := 1 / 2
  fmax := 4
  normFilters := false
  uniqueFilters := true
  filters := []

theorem triangular_filters_coincident :
    ∃ filters, hertzBank.filtersFrom [1 / 2, 1, 1, 5 / 2, 4] = .ok filters ∧
      filters.length = 3 ∧ (filters.map (·.getD 2 0)).sum = 1 := by
  have hbins : [1 / 2, 1, 1, 5 / 2, 4].map hertzBank.hzToBin = [1 / 2, 1, 1, 5 / 2, 4] := by
    simp only [List.map_cons, List.map_nil, FilterBankProcessor.hzToBin, hertzBank]
    norm_num
  obtain ⟨filters, hok, hlen, _, hsum, _⟩ := triangular_filters (b := hertzBank) rfl
    (by rw [hbins]; decide +kernel) (by rw [hbins]; decide +kernel)
  rw [hbins] at hsum
  have hlow : (1 : ℚ) ≤ (2 : ℕ) := by norm_num
  have hhigh : ((2 : ℕ) : ℚ) < 5 / 2 := by norm_num
  exact ⟨filters, hok, hlen, hsum 1 (5 / 2) 2 rfl (by rw [hlen]; rfl) (by decide) hlow hhigh⟩

end BeatNet.Onnx
