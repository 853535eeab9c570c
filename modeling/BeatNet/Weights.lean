import BeatNet.Gates
import BeatNet.Pointers

namespace BeatNet

open Numpy Library.Blocks Library.Effects Library.PrefixSums

section Columns

variable {exp : ℚ → ℚ} {hexp : ∀ x, 0 ≤ exp x} {st : BarStateSpace} {om : BDObservationModel st}
  {a : Activation} {particles : List ℕ} {weights : List ℚ} {s : ℕ}

/-- The state lies in the first part of its beat, which the default models point to column 2. -/
def AtBorder (st : BarStateSpace) (s : ℕ) : Prop := st.statePositions.getD s 1 < 1 / 56

instance (st : BarStateSpace) (s : ℕ) : Decidable (AtBorder st s) :=
  inferInstanceAs (Decidable (_ < _))

theorem atBorder_of_first (h : s ∈ st.firsts) : AtBorder st s := by
  obtain ⟨b, n, hat⟩ := (mem_starts_iff_at st.intervals_pos).mp h
  have hposition : st.statePositions.getD s 1 = 0 := by
    rw [List.getD_eq_getElem?_getD, BarStateSpace.statePositions,
      hat.getElem?_flatMap fun n j ↦ (j / n : ℚ), Nat.cast_zero, zero_div]
    rfl
  rw [AtBorder, hposition]
  norm_num

theorem pointers_of_new (hnew : BDObservationModel.new exp hexp st (.B 56) = .ok om) :
    om.pointers = .border (st.statePositions.map fun x ↦ if x < 1 / 56 then 2 else 0) := by
  obtain ⟨columns, hcolumns, hborder⟩ := border_ok.mp (new_ok.mp hnew)
  rw [hborder, (borderPointers_ok.mp hcolumns).2]
  rfl

theorem map_columns (u v : ℚ) (positions : List ℚ) :
    (positions.map fun x ↦ if x < 1 / 56 then 2 else 0).map
        (fun (column : ℕ) ↦ if column = 2 then u else if column = 0 then v else 0) =
      positions.map fun x ↦ if x < 1 / 56 then u else v := by
  rw [List.map_map]
  apply List.map_congr_left
  intro x _
  by_cases hx : x < 1 / 56
  · simp only [Function.comp_apply, if_pos hx, if_true]
  · simp only [Function.comp_apply, if_neg hx]
    rfl

theorem downDensities_of_new (hnew : BDObservationModel.new exp hexp st (.B 56) = .ok om)
    (a : Activation) : downDensities a om =
      .ok (st.statePositions.map fun x ↦ if x < 1 / 56 then a.downbeat else a.beat) := by
  rw [downDensities, pointers_of_new hnew]
  exact congrArg _ (map_columns a.downbeat a.beat st.statePositions)

theorem beatDensities_of_new (hnew : BDObservationModel.new exp hexp st (.B 56) = .ok om)
    (v : ℚ) : beatDensities v om =
      st.statePositions.map fun x ↦ if x < 1 / 56 then v else 3 / 100 := by
  rw [beatDensities, pointers_of_new hnew]
  exact map_columns v (3 / 100) st.statePositions

theorem take_border {u v : ℚ}
    (h : take (st.statePositions.map fun x ↦ if x < 1 / 56 then u else v) particles = .ok weights)
    (hu : 0 ≤ u) (hv : 0 ≤ v) :
    (∀ w ∈ weights, 0 ≤ w) ∧
      (0 < weights.sum ↔ ∃ p ∈ particles, 0 < if AtBorder st p then u else v) := by
  have hat : ∀ {p w}, (st.statePositions.map fun x ↦ if x < 1 / 56 then u else v)[p]? = some w →
      w = if AtBorder st p then u else v := by
    intro p w hw
    rw [List.getElem?_map] at hw
    obtain ⟨x, hx, rfl⟩ := Option.map_eq_some_iff.mp hw
    simp only [AtBorder, List.getD_eq_getElem?_getD, hx, Option.getD_some]
  have hnonneg : ∀ w ∈ weights, 0 ≤ w := by
    intro w hw
    obtain ⟨p, _, hget⟩ := (mem_take_iff h).mp hw
    rw [hat hget]
    split_ifs
    · exact hu
    · exact hv
  refine ⟨hnonneg, ?_⟩
  rw [sum_pos_iff_exists hnonneg]
  apply Iff.intro
  · rintro ⟨w, hw, hpos⟩
    obtain ⟨p, hp, hget⟩ := (mem_take_iff h).mp hw
    exact ⟨p, hp, hat hget ▸ hpos⟩
  · rintro ⟨p, hp, hpos⟩
    obtain ⟨i, hi⟩ := List.getElem?_of_mem hp
    have hget := take_getElem? h hi
    have hlt : i < weights.length := by
      rw [take_length h]
      exact (List.getElem?_eq_some_iff.mp hi).1
    have hw := List.getElem?_eq_getElem hlt
    exact ⟨weights[i], List.getElem_mem hlt, hat (hget.symm.trans hw) ▸ hpos⟩

end Columns

section Calls

variable {G : Type} (c : Config) (rng : Rng G) (a : Activation) (s : Cascade)

/-- The downbeat correction of the next frame resamples by these weights. -/
def DownCall (weights : List ℚ) : Prop :=
  Due c s ∧ ∃ g moved g' obs2, (downMotion c rng s.downParticles).run g = .ok (moved, g') ∧
    downDensities a c.om2 = .ok obs2 ∧ take obs2 (downInjection c a moved) = .ok weights

/-- The beat correction of the next frame resamples by these weights. -/
def BeatCall (weights : List ℚ) : Prop :=
  ∃ due g t g₁ moved g₂ injected g₃, beatGate c s.tick = .ok due ∧
    (gatedStage c rng a due s.tick).run g = .ok (t, g₁) ∧
    (beatMotion c rng t.particles).run g₁ = .ok (moved, g₂) ∧ 1 / 10 < c.gated a ∧
    (beatInjection c rng (c.gated a) moved).run g₂ = .ok (injected, g₃) ∧
    take (beatDensities (c.gated a) c.om) injected = .ok weights

def Weighted : Prop :=
  7 / 10 < a.downbeat ∧ c.st2.intervals ≠ [] ∨
    ∃ p ∈ s.downParticles,
      if p ∈ c.st2.lasts ∨ AtBorder c.st2 (p + 1) then 0 < a.downbeat else 0 < a.beat

/-- Every call of the next frame is handed weights that can be normalised. -/
def Normalisable : Prop :=
  ∀ weights, BeatCall c rng a s weights ∨ DownCall c rng a s weights →
    (∀ w ∈ weights, 0 ≤ w) ∧ 0 < weights.sum

end Calls

section Sums

variable {G : Type} {c : Config} {rng : Rng G} {a : Activation} {s : Cascade} {exp : ℚ → ℚ}
  {hexp : ∀ x, 0 ≤ exp x} {weights : List ℚ} {g g' : G} {downParticles moved : List ℕ}

theorem exists_moved_iff {P : ℕ → Prop} {u : Prop} (hfirst : ∀ x ∈ c.st2.firsts, P x ↔ u)
    (hrun : (downMotion c rng downParticles).run g = .ok (moved, g')) :
    (∃ x ∈ moved, P x) ↔
      ∃ p ∈ downParticles, if p ∈ c.st2.lasts then u else P (p + 1) := by
  have hmoved := (meets_motion fun l _ hl ↦ meets_downJump (S := False) hl).ok hrun
  have hcase : ∀ y x, MovesTo c.st2.lasts (fun _ x ↦ x ∈ c.st2.firsts) y x →
      (P x ↔ if y ∈ c.st2.lasts then u else P (y + 1)) := by
    intro y x hto
    rw [MovesTo] at hto
    split_ifs at hto ⊢
    · exact hfirst x hto
    · rw [hto]
  apply Iff.intro
  · intro h
    obtain ⟨x, hx, hP⟩ := h
    obtain ⟨y, hy, hto⟩ := hmoved.exists_of_mem hx
    exact ⟨y, hy, (hcase y x hto).mp hP⟩
  · intro h
    obtain ⟨y, hy, hP⟩ := h
    obtain ⟨x, hx, hto⟩ := hmoved.exists_image hy
    exact ⟨x, hx, (hcase y x hto).mpr hP⟩

theorem mem_downInjection_iff {x : ℕ} : x ∈ downInjection c a moved ↔
    x ∈ moved ∨ 7 / 10 < a.downbeat ∧ x ∈ c.st2.firsts := by
  rw [downInjection]
  split_ifs with hloud
  · simp [hloud]
  · simp [hloud]

theorem DownCall.sum_pos_iff (hom2 : BDObservationModel.new exp hexp c.st2 (.B 56) = .ok c.om2)
    (h : DownCall c rng a s weights) :
    (∀ w ∈ weights, 0 ≤ w) ∧ (0 < weights.sum ↔ Weighted c a s) := by
  obtain ⟨_, g, moved, g', obs2, hmove, hobs, htake⟩ := h
  rw [downDensities_of_new hom2] at hobs
  cases hobs
  have hweights := take_border htake a.downbeat_nonneg a.beat_nonneg
  refine ⟨hweights.1, hweights.2.trans ?_⟩
  have hfirst : ∀ x ∈ c.st2.firsts,
      (0 < if AtBorder c.st2 x then a.downbeat else a.beat) ↔ 0 < a.downbeat := fun x hx ↦ by
    rw [if_pos (atBorder_of_first hx)]
  have hmoved := exists_moved_iff hfirst hmove
  have hcases : ∀ p, (if p ∈ c.st2.lasts then 0 < a.downbeat
      else 0 < if AtBorder c.st2 (p + 1) then a.downbeat else a.beat) ↔
      if p ∈ c.st2.lasts ∨ AtBorder c.st2 (p + 1) then 0 < a.downbeat else 0 < a.beat := by
    intro p
    by_cases hlast : p ∈ c.st2.lasts
    · simp only [hlast, true_or, if_true]
    · by_cases hborder : AtBorder c.st2 (p + 1)
      · simp only [hlast, hborder, or_true, if_true, if_false]
      · simp only [hlast, hborder, or_self, if_false]
  simp only [hcases] at hmoved
  have hinjected : (7 / 10 < a.downbeat ∧ c.st2.intervals ≠ []) ↔
      ∃ x, (7 / 10 < a.downbeat ∧ x ∈ c.st2.firsts) ∧
        0 < if AtBorder c.st2 x then a.downbeat else a.beat := by
    apply Iff.intro
    · rintro ⟨hloud, hne⟩
      have hlen : 0 < c.st2.firsts.length := by
        rw [BarStateSpace.length_firsts]
        exact List.length_pos_iff.mpr hne
      have hmem := List.getElem_mem hlen
      refine ⟨_, ⟨hloud, hmem⟩, (hfirst _ hmem).mpr (lt_trans (by norm_num) hloud)⟩
    · rintro ⟨x, ⟨hloud, hx⟩, _⟩
      refine ⟨hloud, fun hnil ↦ ?_⟩
      rw [BarStateSpace.firsts, hnil] at hx
      cases hx
  rw [Weighted, ← hmoved, hinjected, ← exists_or]
  apply exists_congr
  intro x
  rw [mem_downInjection_iff, or_and_right, or_comm]

theorem BeatCall.sum_pos (hom : BDObservationModel.new exp hexp c.st (.B 56) = .ok c.om)
    (h : BeatCall c rng a s weights) : (∀ w ∈ weights, 0 ≤ w) ∧ 0 < weights.sum := by
  obtain ⟨due, g, t, g₁, moved, g₂, injected, g₃, hdue, hstage, hmove, hloud, hinject, htake⟩ := h
  have hpos : 0 < c.gated a := lt_trans (by norm_num) hloud
  rw [beatDensities_of_new hom] at htake
  have hweights := take_border htake hpos.le (by norm_num)
  refine ⟨hweights.1, hweights.2.mpr ?_⟩
  have hparticles := (meets_gatedStage_particles due s.tick).ok hstage
  have hne : s.particles ≠ [] := by
    intro hnil
    have htick : s.tick.particles = [] := hnil
    rw [beatGate, gathering, htick] at hdue
    cases hdue
  have hlen := ((meets_beatMotion (S := False) t.particles).ok hmove).1
  have hinjected := ((meets_beatInjection (S := False) (c.gated a) moved).ok hinject).length_le
  have hcount : 0 < injected.length := by
    have hbefore := List.length_pos_iff.mpr hne
    have htick : s.tick.particles = s.particles := rfl
    rw [hparticles, htick] at hlen
    omega
  refine ⟨_, List.getElem_mem hcount, ?_⟩
  split_ifs
  · exact hpos
  · norm_num

theorem exists_downCall {s' : Cascade} (hdue : Due c s)
    (hrun : (processFrame c rng a s).run g = .ok (s', g')) :
    ∃ weights, DownCall c rng a s weights := by
  obtain ⟨due, k, hgate, hrun⟩ := run_bind_ok.mp hrun
  obtain ⟨t, k', hstage, _⟩ := run_bind_ok.mp hrun
  cases hdue.symm.trans (run_lift_ok.mp hgate).1
  obtain ⟨moved, k₁, hmove, hstage⟩ := run_bind_ok.mp hstage
  obtain ⟨corrected, k₂, hcorrect, _⟩ := run_bind_ok.mp hstage
  obtain ⟨obs2, k₃, hobs, hcorrect⟩ := run_bind_ok.mp hcorrect
  obtain ⟨weights, k₄, htake, _⟩ := run_bind_ok.mp hcorrect
  exact ⟨weights, hdue, _, moved, _, obs2, hmove, (run_lift_ok.mp hobs).1, (run_lift_ok.mp htake).1⟩

/-- The weights of a beat correction never add up to zero. Those of a downbeat correction do when
no first state is injected and every downbeat particle moves to where its activation is zero. -/
theorem resampling_weights (hom : BDObservationModel.new exp hexp c.st (.B 56) = .ok c.om)
    (hom2 : BDObservationModel.new exp hexp c.st2 (.B 56) = .ok c.om2) (frames : List Activation)
    (s : Cascade) (g : G) :
    (Run c rng Any frames s g → ∀ a weights,
      (BeatCall c rng a s weights → (∀ w ∈ weights, 0 ≤ w) ∧ 0 < weights.sum) ∧
        (DownCall c rng a s weights →
          (∀ w ∈ weights, 0 ≤ w) ∧ (0 < weights.sum ↔ Weighted c a s))) ∧
      (Run c rng (fun s a ↦ Normalisable c rng a s) frames s g ↔
        Run c rng (fun s a ↦ Due c s → Weighted c a s) frames s g) := by
  refine ⟨fun _ a weights ↦ ⟨fun h ↦ h.sum_pos hom, fun h ↦ h.sum_pos_iff hom2⟩, ?_⟩
  refine Run.congr fun s a s' g g' hframe ↦ ?_
  apply Iff.intro
  · intro h hdue
    obtain ⟨weights, hcall⟩ := exists_downCall hdue hframe
    exact (hcall.sum_pos_iff hom2).2.mp (h weights (.inr hcall)).2
  · intro h weights hcall
    rcases hcall with hcall | hcall
    · exact hcall.sum_pos hom
    · obtain ⟨hnonneg, hsum⟩ := hcall.sum_pos_iff hom2
      exact ⟨hnonneg, hsum.mpr (h hcall.1)⟩

end Sums

section Small

theorem new_small_om :
    BDObservationModel.new steepExp steepExp_nonneg smallBeats (.B 56) =
      .ok (small 0 (4 / 10)).om :=
  new_ok.mpr (pointersOf_B (by decide +kernel))

theorem new_small_om2 :
    BDObservationModel.new steepExp steepExp_nonneg smallBars (.B 56) =
      .ok (small 0 (4 / 10)).om2 :=
  new_ok.mpr (pointersOf_B (by decide +kernel))

theorem run_two_silences :
    Run (small 0 (4 / 10)) Rng.least Any [silence, silence] ⟨1, [], [2], [0]⟩ () :=
  run_of_simulate (by decide +kernel)

theorem downCall_small (a : Activation) (h : ¬ 7 / 10 < a.downbeat) :
    DownCall (small 0 (4 / 10)) Rng.least a ⟨1, [], [2], [0]⟩ [a.beat] := by
  have hmove : (downMotion (small 0 (4 / 10)) Rng.least [0]).run () = .ok ([1], ()) := by
    decide +kernel
  refine ⟨by decide +kernel, (), [1], (), _, hmove, downDensities_of_new new_small_om2 a, ?_⟩
  have hposition : smallBars.statePositions[1]? = some (1 / 2) := by decide +kernel
  rw [downInjection, if_neg h]
  refine take_cons_ok.mpr ⟨a.beat, [], ?_, rfl, rfl⟩
  rw [List.getElem?_map, hposition, Option.map_some, if_neg (by norm_num)]

theorem resampling_weights_clear :
    0 < [clearBeat.beat].sum ↔ Weighted (small 0 (4 / 10)) clearBeat ⟨1, [], [2], [0]⟩ :=
  (((resampling_weights (c := small 0 (4 / 10)) new_small_om new_small_om2 _ _ ()).1
    run_two_silences clearBeat _).2 (downCall_small clearBeat (by decide +kernel))).2

/-- In a silent frame the downbeat particles are resampled by the weight zero. -/
theorem silent_frame_weightless :
    ¬ ∀ (exp : ℚ → ℚ) (hexp : ∀ x, 0 ≤ exp x) (c : Config) (rng : Rng Unit),
      BDObservationModel.new exp hexp c.st (.B 56) = .ok c.om →
        BDObservationModel.new exp hexp c.st2 (.B 56) = .ok c.om2 →
          ∀ frames s g, Run c rng Any frames s g → ∀ a, a.beat ≤ 1 → a.downbeat ≤ 1 →
            Normalisable c rng a s := by
  intro h
  have hsilence := h steepExp steepExp_nonneg (small 0 (4 / 10)) Rng.least new_small_om
    new_small_om2 _ _ () run_two_silences silence (by decide +kernel) (by decide +kernel)
  have hsum := (hsilence _ (.inr (downCall_small silence (by decide +kernel)))).2
  exact absurd hsum (by decide +kernel)

end Small

end BeatNet
