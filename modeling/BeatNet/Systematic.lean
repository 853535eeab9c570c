import BeatNet.InverseCdf

namespace BeatNet

open Numpy Library.Effects Library.PrefixSums Library.Strata

variable {G α : Type} {weights r : List ℚ}

/-- `while U > c`, with the index `i`, the sum `c` and the weights behind the index. -/
def advance (U : ℚ) (i : ℕ) (c : ℚ) : List ℚ → Except PyError (ℕ × ℚ × List ℚ)
  | [] => if c < U then .error .indexError else .ok (i, c, [])
  | w :: rest => if c < U then advance U (i + 1) (c + w) rest else .ok (i, c, w :: rest)

def slots (particles : List α) : List ℚ → ℕ → ℚ → List ℚ → Except PyError (List α)
  | [], _, _, _ => .ok []
  | U :: Us, i, c, rest => do
    let walked ← advance U i c rest
    let x ← item particles walked.1
    let new ← slots particles Us walked.1 walked.2.1 walked.2.2
    return x :: new

def systematic (J : ℕ) (r : ℚ) : List ℚ := (List.range J).map fun (j : ℕ) ↦ r + j * (1 / J)

/-- `universal_resample_original` on its draw. Over a zero total the first weight
is not a number, and no point is greater. Particles are whole numbers, which the
conversions leave as they are. -/
def originalAt (particles : List ℤ) (weights : List ℚ) (r : ℚ) : Except PyError (List ℤ) :=
  match weights.map (· / weights.sum) with
  | [] => .error .indexError
  | w :: rest =>
    if weights.sum = 0 then take particles ((systematic particles.length r).map fun _ ↦ 0)
    else slots particles (systematic particles.length r) 0 w rest

def universalResampleOriginal (rng : Rng G) (particles : List ℤ) (weights : List ℚ) :
    Draw G (List ℤ) :=
  if particles.length = 0 then throw .zeroDivisionError
  else do
    let r ← drawUniform rng (1 / particles.length) 1
    originalAt particles weights (r.headD 0)

theorem universalResampleOriginal_run {rng : Rng G} {particles : List ℤ} (hne : particles ≠ [])
    (g : G) :
    (universalResampleOriginal rng particles weights).run g =
      (originalAt particles weights ((rng.uniform (1 / particles.length) 1 g).1.headD 0)).map
        fun out ↦ (out, (rng.uniform (1 / particles.length) 1 g).2) := by
  have hlen : particles.length ≠ 0 := by simpa using hne
  rw [universalResampleOriginal, if_neg hlen]
  exact run_bind_lift rfl

section Walk

theorem advance_eq {U c : ℚ} {i : ℕ} {rest : List ℚ}
    (h : insertionPoint (rest.scanl (· + ·) c) U ≤ rest.length) :
    advance U i c rest = .ok (i + insertionPoint (rest.scanl (· + ·) c) U,
      c + (rest.take (insertionPoint (rest.scanl (· + ·) c) U)).sum,
      rest.drop (insertionPoint (rest.scanl (· + ·) c) U)) := by
  induction rest generalizing i c with
  | nil =>
    rw [List.scanl_nil, insertionPoint_cons] at h ⊢
    by_cases hc : c < U
    · simp [hc, insertionPoint] at h
    · simp [advance, hc]
  | cons w rest ih =>
    rw [List.scanl_cons, insertionPoint_cons] at h ⊢
    by_cases hc : c < U
    · rw [if_pos hc, List.length_cons] at h
      simp only [advance, if_pos hc, ih (Nat.le_of_succ_le_succ h), List.take_succ_cons,
        List.sum_cons, List.drop_succ_cons, add_assoc, Nat.add_comm 1]
    · simp [advance, hc]

theorem slots_eq {particles : List α} {Us rest : List ℚ} {c : ℚ} {i : ℕ}
    (hsorted : Us.Pairwise (· ≤ ·))
    (h : ∀ U ∈ Us, insertionPoint (rest.scanl (· + ·) c) U ≤ rest.length) :
    slots particles Us i c rest =
      take particles (Us.map fun U ↦ i + insertionPoint (rest.scanl (· + ·) c) U) := by
  induction Us generalizing i c rest with
  | nil => rfl
  | cons U Us ih =>
    obtain ⟨hU, hsorted⟩ := List.pairwise_cons.mp hsorted
    obtain ⟨hplace, hrest⟩ := List.forall_mem_cons.mp h
    have hadvance := advance_eq (i := i) hplace
    generalize hp : insertionPoint (rest.scanl (· + ·) c) U = p at hplace hadvance ⊢
    have hbehind : ∀ V ∈ Us, p +
        insertionPoint ((rest.drop p).scanl (· + ·) (c + (rest.take p).sum)) V =
          insertionPoint (rest.scanl (· + ·) c) V := by
      intro V hV
      rw [← drop_scanl hplace, ← hp]
      exact insertionPoint_drop _ (hU V hV)
    have hbound : ∀ V ∈ Us, insertionPoint ((rest.drop p).scanl (· + ·)
        (c + (rest.take p).sum)) V ≤ (rest.drop p).length := by
      intro V hV
      have heq := hbehind V hV
      have hle := hrest V hV
      rw [List.length_drop]
      omega
    have hmap : Us.map (fun V ↦ i + p +
        insertionPoint ((rest.drop p).scanl (· + ·) (c + (rest.take p).sum)) V) =
        Us.map fun V ↦ i + insertionPoint (rest.scanl (· + ·) c) V := by
      apply List.map_congr_left
      intro V hV
      rw [add_assoc, hbehind V hV]
    have hnew := ih (i := i + p) hsorted hbound
    rw [hmap] at hnew
    rw [List.map_cons, hp, take_cons, slots, hadvance]
    change (item particles (i + p)).bind (fun x ↦
      (slots particles Us (i + p) (c + (rest.take p).sum) (rest.drop p)).bind fun new ↦
        .ok (x :: new)) = _
    rw [hnew]
    rfl

theorem systematic_eq_positions (J : ℕ) (x : ℚ) :
    systematic J x = positions (List.replicate J x) := by
  apply List.ext_getElem
  · simp [systematic]
  · intro j hj hj'
    simp [systematic, positions]

theorem originalAt_eq {particles : List ℤ} {x : ℚ} (hw : weights.length = particles.length)
    (hsum : 0 < weights.sum) (hx : 0 ≤ x ∧ x < 1 / particles.length) :
    originalAt particles weights x =
      resampleAt particles weights (List.replicate particles.length x) := by
  have hdraw : ∀ y ∈ List.replicate particles.length x,
      0 ≤ y ∧ y < 1 / (List.replicate particles.length x).length := by
    intro y hy
    rw [List.eq_of_mem_replicate hy, List.length_replicate]
    exact hx
  have hne := ne_nil_of_sum_pos hsum
  have hrange := places_lt hne (positions_lt_one fun y hy ↦ (hdraw y hy).2)
  rw [originalAt, resampleAt, places_eq_map hsum]
  cases hnorm : weights.map (· / weights.sum) with
  | nil => exact absurd (List.map_eq_nil_iff.mp hnorm) hne
  | cons w rest =>
    have hcumsum : cumsumWeights weights = rest.scanl (· + ·) w := by
      rw [cumsumWeights, hnorm, cumsum, prefixSums, List.scanl_cons, zero_add, List.tail_cons]
    have hlen : weights.length = rest.length + 1 := by
      rw [← List.length_map (· / weights.sum), hnorm, List.length_cons]
    have hbound : ∀ U ∈ positions (List.replicate particles.length x),
        insertionPoint (rest.scanl (· + ·) w) U ≤ rest.length := by
      intro U hU
      have hlt := hrange (insertionPoint (cumsumWeights weights) U) (by
        rw [places_eq_map hsum]
        exact List.mem_map_of_mem hU)
      rw [hcumsum] at hlt
      omega
    dsimp only
    rw [if_neg hsum.ne', systematic_eq_positions,
      slots_eq (stratified_positions hdraw).pairwise hbound, hcumsum]
    simp only [zero_add]

/-- The walk of the original method stays within the weights and takes the particles that the
search of the optimised one takes when all slots draw the same number. The search relies on sums
that are in order. -/
theorem original_resampling {particles : List ℤ} {x : ℚ} (hw : weights.length = particles.length)
    (_hnonneg : ∀ y ∈ weights, 0 ≤ y) (hsum : 0 < weights.sum)
    (hx : 0 ≤ x ∧ x < 1 / particles.length) :
    ∃ out,
      (∀ (G : Type) (rng : Rng G) (g g' : G),
        rng.uniform (1 / particles.length) 1 g = ([x], g') →
          (universalResampleOriginal rng particles weights).run g = .ok (out, g')) ∧
      ∀ (G : Type) (rng : Rng G) (g g' : G),
        rng.uniform (1 / particles.length) particles.length g =
            (List.replicate particles.length x, g') →
          (universalResample rng particles weights).run g = .ok (out, g') := by
  have hne : particles ≠ [] := by
    rintro rfl
    exact ne_nil_of_sum_pos hsum (List.length_eq_zero_iff.mp hw)
  obtain ⟨out, hout⟩ := resampleAt_ok hne hw List.length_replicate fun y hy ↦ by
    rw [List.eq_of_mem_replicate hy]
    exact hx.2
  refine ⟨out, fun G rng g g' hdraw ↦ ?_, fun G rng g g' hdraw ↦ ?_⟩
  · rw [universalResampleOriginal_run hne, hdraw, List.headD_cons, originalAt_eq hw hsum hx, hout]
    rfl
  · rw [universalResample_run hne, hdraw, hout]
    rfl

theorem original_resampling_tie :
    (universalResampleOriginal (Rng.drawing [1 / 6]) [7, 8, 9] [1, 0, 1]).run () =
      .ok ([7, 7, 9], ()) := by
  obtain ⟨out, horiginal, hout⟩ := original_resampling
    (show [1, 0, 1].length = ([7, 8, 9] : List ℤ).length from rfl)
    (show ∀ y ∈ [(1 : ℚ), 0, 1], 0 ≤ y by simp) (by norm_num) (x := 1 / 6) (by norm_num)
  have hvalue : (universalResample (Rng.drawing (List.replicate 3 (1 / 6))) ([7, 8, 9] : List ℤ)
      [1, 0, 1]).run () = .ok ([7, 7, 9], ()) := by decide +kernel
  have hsame := hout Unit (Rng.drawing (List.replicate 3 (1 / 6))) () ()
    (Rng.uniform_drawing (by decide +kernel))
  rw [hvalue] at hsame
  cases hsame
  exact horiginal Unit (Rng.drawing [1 / 6]) () () (Rng.uniform_drawing (by decide +kernel))

end Walk

section Strata

/-- The values of the distribution function below one all lie in one stratum. -/
def OneStratum (weights : List ℚ) : Prop :=
  ∀ x ∈ cumsumWeights weights, ∀ y ∈ cumsumWeights weights, x < 1 → y < 1 →
    ⌊weights.length * x⌋ = ⌊weights.length * y⌋

theorem places_positions_getElem? (hsum : 0 < weights.sum) {x : ℚ} {n : ℕ} (hx : r[n]? = some x) :
    (places weights (positions r))[n]? =
      some (insertionPoint (cumsumWeights weights) (x + n * (1 / r.length))) := by
  rw [places_eq_map hsum, List.getElem?_map, positions, List.getElem?_map, List.getElem?_zipIdx,
    hx]
  simp

omit r in
theorem add_slot_le_iff {J : ℕ} (hJ : 0 < J) {x z : ℚ} (n : ℕ) :
    x + n * (1 / J) ≤ z ↔ J * x + n ≤ J * z := by
  have hpos : (0 : ℚ) < J := Nat.cast_pos.mpr hJ
  have hscale : (J : ℚ) * (x + n * (1 / J)) = J * x + n := by field_simp
  rw [← mul_le_mul_iff_right₀ hpos, hscale]

theorem places_eq_iff {s : List ℚ} (hnonneg : ∀ y ∈ weights, 0 ≤ y) (hsum : 0 < weights.sum)
    (hr : r.length = weights.length) (hs : s.length = weights.length) :
    places weights (positions r) = places weights (positions s) ↔
      ∀ (n : ℕ) (x y : ℚ), r[n]? = some x → s[n]? = some y → ∀ z ∈ cumsumWeights weights,
        weights.length * x + n ≤ weights.length * z ↔
          weights.length * y + n ≤ weights.length * z := by
  have hpos := List.length_pos_iff.mpr (ne_nil_of_sum_pos hsum)
  constructor
  · intro heq n x y hx hy z hz
    have hplace := congrArg (·[n]?) heq
    beta_reduce at hplace
    rw [places_positions_getElem? hsum hx, places_positions_getElem? hsum hy, hr, hs,
      Option.some.injEq] at hplace
    have hiff := le_iff_of_insertionPoint_eq (pairwise_cumsumWeights hnonneg) hplace hz
    rwa [add_slot_le_iff hpos, add_slot_le_iff hpos] at hiff
  · intro h
    apply List.ext_getElem?
    intro n
    rcases Nat.lt_or_ge n weights.length with hn | hn
    · obtain ⟨x, hx⟩ : ∃ x, r[n]? = some x := ⟨_, List.getElem?_eq_getElem (hn.trans_eq hr.symm)⟩
      obtain ⟨y, hy⟩ : ∃ y, s[n]? = some y := ⟨_, List.getElem?_eq_getElem (hn.trans_eq hs.symm)⟩
      rw [places_positions_getElem? hsum hx, places_positions_getElem? hsum hy, hr, hs]
      congr 1
      apply insertionPoint_congr
      intro z hz
      rw [← not_le, ← not_le, add_slot_le_iff hpos, add_slot_le_iff hpos, h n x y hx hy z hz]
    · rw [List.getElem?_eq_none (by simpa [hr] using hn),
        List.getElem?_eq_none (by simpa [hs] using hn)]

theorem exists_unreachable (hnonneg : ∀ y ∈ weights, 0 ≤ y) (hsum : 0 < weights.sum) {x y : ℚ}
    {j k : ℕ} (hx : x ∈ cumsumWeights weights) (hy : y ∈ cumsumWeights weights)
    (hj : j < weights.length) (hk : k < weights.length) (hjk : j ≠ k)
    (hxj : (j : ℚ) ≤ weights.length * x ∧ weights.length * x < j + 1)
    (hyk : (k : ℚ) ≤ weights.length * y ∧ weights.length * y < k + 1)
    (hle : weights.length * x - j ≤ weights.length * y - k) :
    ∃ r : List ℚ, r.length = weights.length ∧ (∀ z ∈ r, 0 ≤ z ∧ z < 1 / weights.length) ∧
      ∀ r₀, places weights (positions (List.replicate weights.length r₀)) ≠
        places weights (positions r) := by
  have hpos : (0 : ℚ) < weights.length := Nat.cast_pos.mpr (by omega)
  let share (n : ℕ) : ℚ :=
    if n = j then weights.length * x - j
    else if n = k then (weights.length * y - k + 1) / 2
    else 0
  have hshare : ∀ n, 0 ≤ share n ∧ share n < 1 := by
    intro n
    dsimp only [share]
    split_ifs <;> constructor <;> linarith
  let r : List ℚ := (List.range weights.length).map fun n ↦ share n / weights.length
  have hlen : r.length = weights.length := by simp [r]
  refine ⟨r, hlen, ?_, ?_⟩
  · intro z hz
    obtain ⟨n, _, rfl⟩ := List.mem_map.mp hz
    obtain ⟨hlow, hhigh⟩ := hshare n
    exact ⟨div_nonneg hlow hpos.le, div_lt_div_of_pos_right hhigh hpos⟩
  · intro r₀ heq
    have hside : ∀ n < weights.length, ∀ z ∈ cumsumWeights weights,
        weights.length * r₀ + n ≤ weights.length * z ↔ share n + n ≤ weights.length * z := by
      intro n hn z hz
      have hsame := (places_eq_iff hnonneg hsum List.length_replicate hlen).mp heq n r₀
        (share n / weights.length) (by simp [hn]) (by simp [r, hn]) z hz
      rwa [mul_div_cancel₀ _ hpos.ne'] at hsame
    have hlow := (hside j hj x hx).mpr (by simp [share])
    have hhigh : ¬ weights.length * r₀ + k ≤ weights.length * y := by
      rw [hside k hk y hy]
      simp only [share, if_neg hjk.symm, if_true]
      linarith
    linarith

theorem exists_stratum (hnonneg : ∀ y ∈ weights, 0 ≤ y) {x : ℚ} (hx : x ∈ cumsumWeights weights)
    (hlt : x < 1) :
    ∃ j < weights.length, ⌊weights.length * x⌋ = j ∧ (j : ℚ) ≤ weights.length * x ∧
      weights.length * x < j + 1 := by
  obtain ⟨i, hi⟩ := List.mem_iff_getElem?.mp hx
  have hlen : i < weights.length := by
    have hlt := (List.getElem?_eq_some_iff.mp hi).1
    rwa [cumsumWeights, cumsum, length_prefixSums, List.length_map] at hlt
  have hpos : (0 : ℚ) < weights.length := Nat.cast_pos.mpr (by omega)
  rw [cumsumWeights_getElem? hlen, Option.some.injEq] at hi
  have hprod : 0 ≤ weights.length * x := mul_nonneg hpos.le (hi ▸ cdf_nonneg hnonneg _)
  have hlow := Nat.floor_le hprod
  have hhigh := Nat.lt_floor_add_one ((weights.length : ℚ) * x)
  refine ⟨⌊weights.length * x⌋₊, ?_, Int.floor_eq_iff.mpr ⟨?_, ?_⟩, hlow, hhigh⟩
  · rw [Nat.floor_lt hprod]
    exact mul_lt_of_lt_one_right hpos hlt
  · exact_mod_cast hlow
  · exact_mod_cast hhigh

theorem OneStratum.exists_common (h : OneStratum weights) (hnonneg : ∀ y ∈ weights, 0 ≤ y)
    (hlen : 0 < weights.length) :
    ∃ j < weights.length, ∀ z ∈ cumsumWeights weights, z < 1 →
      (j : ℚ) ≤ weights.length * z ∧ weights.length * z < j + 1 := by
  by_cases hex : ∃ x ∈ cumsumWeights weights, x < 1
  · obtain ⟨x, hx, hx1⟩ := hex
    obtain ⟨j, hj, hfloor, _⟩ := exists_stratum hnonneg hx hx1
    refine ⟨j, hj, fun z hz hz1 ↦ ?_⟩
    obtain ⟨k, _, hfloor', hbounds⟩ := exists_stratum hnonneg hz hz1
    have hjk : (j : ℤ) = k := hfloor.symm.trans ((h x hx z hz hx1 hz1).trans hfloor')
    rwa [Int.natCast_inj.mp hjk]
  · exact ⟨0, hlen, fun z hz hz1 ↦ absurd ⟨z, hz, hz1⟩ hex⟩

theorem OneStratum.exists_offset (h : OneStratum weights) (hnonneg : ∀ y ∈ weights, 0 ≤ y)
    (hsum : 0 < weights.sum) (hlen : r.length = weights.length)
    (hdraw : ∀ x ∈ r, 0 ≤ x ∧ x < 1 / weights.length) :
    ∃ r₀ : ℚ, (0 ≤ r₀ ∧ r₀ < 1 / weights.length) ∧
      places weights (positions (List.replicate weights.length r₀)) =
        places weights (positions r) := by
  have hpos := List.length_pos_iff.mpr (ne_nil_of_sum_pos hsum)
  have hcast : (0 : ℚ) < weights.length := Nat.cast_pos.mpr hpos
  have hscaled : ∀ x ∈ r, 0 ≤ weights.length * x ∧ weights.length * x < 1 := by
    intro x hx
    obtain ⟨hlow, hhigh⟩ := hdraw x hx
    rw [lt_div_iff₀' hcast] at hhigh
    exact ⟨mul_nonneg hcast.le hlow, hhigh⟩
  obtain ⟨j, hj, hcommon⟩ := h.exists_common hnonneg hpos
  have hoffset := List.getElem?_eq_getElem (hj.trans_eq hlen.symm)
  have hmem := List.mem_of_getElem? hoffset
  refine ⟨_, hdraw _ hmem, (places_eq_iff hnonneg hsum List.length_replicate hlen).mpr ?_⟩
  intro n x y hx hy z hz
  rw [List.eq_of_mem_replicate (List.mem_of_getElem? hx)]
  obtain ⟨hlow, hhigh⟩ := hscaled _ hmem
  obtain ⟨hlow', hhigh'⟩ := hscaled _ (List.mem_of_getElem? hy)
  rcases lt_or_ge z 1 with hz1 | hz1
  · obtain ⟨hzj, hzj'⟩ := hcommon z hz hz1
    rcases lt_trichotomy n j with hnj | rfl | hnj
    · have hstep : (n : ℚ) + 1 ≤ j := by exact_mod_cast hnj
      exact iff_of_true (by linarith) (by linarith)
    · rw [Option.some.inj (hoffset.symm.trans hy)]
    · have hstep : (j : ℚ) + 1 ≤ n := by exact_mod_cast hnj
      exact iff_of_false (not_le.mpr (by linarith)) (not_le.mpr (by linarith))
  · have hn := hlen ▸ (List.getElem?_eq_some_iff.mp hy).1
    have hnlen : (n : ℚ) + 1 ≤ weights.length := by exact_mod_cast hn
    have hall := le_mul_of_one_le_right hcast.le hz1
    exact iff_of_true (by linarith) (by linarith)

theorem oneStratum_of_reachable (hnonneg : ∀ y ∈ weights, 0 ≤ y) (hsum : 0 < weights.sum)
    (hreach : ∀ particles : List ℤ, particles.length = weights.length → ∀ r : List ℚ,
      r.length = weights.length → (∀ x ∈ r, 0 ≤ x ∧ x < 1 / weights.length) →
        ∃ r₀ : ℚ, (0 ≤ r₀ ∧ r₀ < 1 / weights.length) ∧
          originalAt particles weights r₀ = resampleAt particles weights r) :
    OneStratum weights := by
  have hplaces : ∀ r : List ℚ, r.length = weights.length →
      (∀ x ∈ r, 0 ≤ x ∧ x < 1 / weights.length) →
        ∃ r₀, places weights (positions (List.replicate weights.length r₀)) =
          places weights (positions r) := by
    intro r hlen hdraw
    let particles : List ℤ := (List.range weights.length).map Int.ofNat
    have hparticles : particles.length = weights.length := by simp [particles]
    have hnodup : particles.Nodup := List.nodup_range.map fun _ _ ↦ Int.ofNat.inj
    obtain ⟨r₀, hr₀, heq⟩ := hreach particles hparticles r hlen hdraw
    rw [originalAt_eq hparticles.symm hsum (by rwa [hparticles]), hparticles] at heq
    refine ⟨r₀, take_injective hnodup ?_ heq⟩
    rw [hparticles]
    refine places_lt (ne_nil_of_sum_pos hsum) (positions_lt_one ?_)
    intro x hx
    rw [List.eq_of_mem_replicate hx, List.length_replicate]
    exact hr₀.2
  intro x hx y hy hx1 hy1
  obtain ⟨j, hj, hfloor, hxj⟩ := exists_stratum hnonneg hx hx1
  obtain ⟨k, hk, hfloor', hyk⟩ := exists_stratum hnonneg hy hy1
  rw [hfloor, hfloor']
  by_contra hne
  have hjk : j ≠ k := fun h ↦ hne (congrArg _ h)
  rcases le_total (weights.length * x - j) (weights.length * y - k) with hle | hle
  · obtain ⟨r, hlen, hdraw, hnot⟩ := exists_unreachable hnonneg hsum hx hy hj hk hjk hxj hyk hle
    obtain ⟨r₀, heq⟩ := hplaces r hlen hdraw
    exact hnot r₀ heq
  · obtain ⟨r, hlen, hdraw, hnot⟩ :=
      exists_unreachable hnonneg hsum hy hx hk hj hjk.symm hyk hxj hle
    obtain ⟨r₀, heq⟩ := hplaces r hlen hdraw
    exact hnot r₀ heq

theorem map_fst_run_original {rng : Rng G} {particles : List ℤ} (hne : particles ≠ []) {g : G}
    {x : ℚ} (hx : (rng.uniform (1 / particles.length) 1 g).1 = [x]) :
    ((universalResampleOriginal rng particles weights).run g).map Prod.fst =
      originalAt particles weights x := by
  rw [universalResampleOriginal_run hne, hx, List.headD_cons]
  cases originalAt particles weights x <;> rfl

theorem map_fst_run_universal {rng : Rng G} {particles : List ℤ} (hne : particles ≠ []) (g : G) :
    ((universalResample rng particles weights).run g).map Prod.fst =
      resampleAt particles weights (rng.uniform (1 / particles.length) particles.length g).1 := by
  rw [universalResample_run hne]
  cases resampleAt particles weights _ <;> rfl

/-- What one offset gives that the original may draw. -/
def Reached (weights : List ℚ) (particles : List ℤ) (result : Except PyError (List ℤ)) : Prop :=
  ∃ r₀ : ℚ, (0 ≤ r₀ ∧ r₀ < 1 / particles.length) ∧ ∀ (G : Type) (rng : Rng G) (g : G),
    (rng.uniform (1 / particles.length) 1 g).1 = [r₀] →
      ((universalResampleOriginal rng particles weights).run g).map Prod.fst = result

theorem oneStratum_of_reached (hnonneg : ∀ y ∈ weights, 0 ≤ y) (hsum : 0 < weights.sum)
    (h : ∀ particles : List ℤ, particles.length = weights.length →
      ∀ (G : Type) (rng : Rng G) (g : G), Reached weights particles
        (((universalResample rng particles weights).run g).map Prod.fst)) :
    OneStratum weights := by
  refine oneStratum_of_reachable hnonneg hsum fun particles hparticles r hlen hdraw ↦ ?_
  have hne : particles ≠ [] := by
    rintro rfl
    exact ne_nil_of_sum_pos hsum (List.length_eq_zero_iff.mp hparticles.symm)
  obtain ⟨r₀, hr₀, hall⟩ := h particles hparticles Unit (Rng.drawing r) ()
  have hsame := hall Unit (Rng.drawing [r₀]) ()
    (congrArg Prod.fst (Rng.uniform_drawing (by simpa using hr₀)))
  rw [map_fst_run_universal hne, map_fst_run_original hne
    (congrArg Prod.fst (Rng.uniform_drawing (by simpa using hr₀)))] at hsame
  rw [hparticles] at hr₀ hsame
  have hr := congrArg Prod.fst (Rng.uniform_drawing hdraw)
  rw [hlen] at hr
  rw [hr] at hsame
  exact ⟨r₀, hr₀, hsame⟩

/-- Every outcome of `universal_resample` is one of the original exactly when the
distribution function takes its values below one in a single stratum. -/
theorem optimised_resampling (hnonneg : ∀ y ∈ weights, 0 ≤ y) (hsum : 0 < weights.sum) :
    (∀ particles : List ℤ, particles.length = weights.length →
      ∀ (G : Type) (rng : Rng G) (g : G), Reached weights particles
        (((universalResample rng particles weights).run g).map Prod.fst)) ↔
      OneStratum weights := by
  refine ⟨oneStratum_of_reached hnonneg hsum, fun h particles hparticles G rng g ↦ ?_⟩
  have hpos := List.length_pos_iff.mpr (ne_nil_of_sum_pos hsum)
  have hne : particles ≠ [] := by
    rw [← List.length_pos_iff]
    omega
  have hhigh : (0 : ℚ) < 1 / particles.length := by
    rw [hparticles]
    exact one_div_pos.mpr (Nat.cast_pos.mpr hpos)
  have hlen := rng.length_uniform (1 / particles.length) particles.length g
  have hdraw := rng.uniform_mem (1 / particles.length) particles.length g hhigh
  rw [map_fst_run_universal hne]
  generalize (rng.uniform (1 / particles.length) particles.length g).1 = r at hlen hdraw ⊢
  obtain ⟨r₀, hr₀, heq⟩ := h.exists_offset hnonneg hsum (hlen.trans hparticles)
    (by rwa [← hparticles])
  rw [← hparticles] at hr₀
  refine ⟨r₀, hr₀, fun G' rng' g' hx ↦ ?_⟩
  rw [map_fst_run_original hne hx, originalAt_eq hparticles.symm hsum hr₀, hparticles, resampleAt,
    heq]
  rfl

theorem optimised_resampling_equal_weights :
    Reached [1, 1] [4, 5]
      (((universalResample (Rng.drawing [1 / 4, 0]) [4, 5] [1, 1]).run ()).map Prod.fst) :=
  (optimised_resampling (show ∀ y ∈ ([1, 1] : List ℚ), 0 ≤ y by simp) (by norm_num)).mpr
    (by unfold OneStratum; decide +kernel) [4, 5] rfl Unit _ ()

/-- With the weights 1, 2 and 3, the first slot may take the first particle and the second
slot the third; with one offset they may not. -/
theorem optimised_resampling_beyond_original :
    ¬ ∀ (particles : List ℤ) (weights : List ℚ), particles ≠ [] →
      weights.length = particles.length → (∀ y ∈ weights, 0 ≤ y) → 0 < weights.sum →
        ∀ (G : Type) (rng : Rng G) (g : G), Reached weights particles
          (((universalResample rng particles weights).run g).map Prod.fst) := by
  intro h
  have hone : OneStratum [1, 2, 3] := by
    apply oneStratum_of_reached (by simp) (by norm_num)
    intro particles hparticles
    have hne : particles ≠ [] := by
      rintro rfl
      cases hparticles
    exact h particles [1, 2, 3] hne hparticles.symm (by simp) (by norm_num)
  have heq := hone (1 / 6) (by decide +kernel) (1 / 2) (by decide +kernel) (by norm_num)
    (by norm_num)
  revert heq
  decide +kernel

end Strata

end BeatNet
