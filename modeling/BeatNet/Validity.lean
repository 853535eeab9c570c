import BeatNet.Runs

namespace BeatNet

open Numpy Library.Effects

variable {G : Type} {c : Config} {rng : Rng G} {s s' : Cascade} {g : G} {a : Activation}
  {frames : List Activation}

theorem downDeleted_le (h : c.st2.intervals ≠ []) (a : Activation) :
    downDeleted a ≤ downInjected c a := by
  have hlen : 0 < c.st2.intervals.length := List.length_pos_iff.mpr h
  rw [downDeleted, downInjected]
  split <;> omega

theorem Valid.step (hst2 : c.st2.intervals ≠ []) (h : Valid c s) (hf : FrameStep c a s s') :
    Valid c s' := by
  obtain ⟨moved, hmoved, hinj, _⟩ := hf.beat
  have hparticles : ∀ p ∈ s'.particles, p < c.st.numStates := by
    intro p hp
    rcases hinj.mem p hp with hm | hfirst
    · exact hmoved.2 h.particles p hm
    · exact BarStateSpace.firsts_lt hfirst
  have hsize : c.particleSize ≤ s'.particles.length :=
    h.size.trans (hmoved.1 ▸ hinj.length_le)
  obtain ⟨t, hs', ⟨_, ht⟩ | ⟨_, rfl⟩⟩ := hf.stage
  · have hdown : s'.downParticles = t.downParticles := by rw [hs']
    have hlen := ht.length
    have hle := downDeleted_le hst2 a
    have hds := h.downSize
    refine ⟨hparticles, ?_, hsize, ?_⟩
    · rw [hdown]
      exact ht.valid h.downParticles
    · rw [hdown]
      have htick : s.tick.downParticles.length = s.downParticles.length := rfl
      omega
  · have hdown : s'.downParticles = s.downParticles := by
      rw [hs']
      rfl
    exact ⟨hparticles, hdown ▸ h.downParticles, hsize, hdown ▸ h.downSize⟩

theorem Run.valid (hst2 : c.st2.intervals ≠ []) (h : Run c rng Any frames s g) : Valid c s :=
  h.invariant (fun _ hs ↦ hs.valid) fun _ _ _ _ hf hv ↦ hv.step hst2 hf

theorem gathering_lt {particles : List ℕ} {m N : ℕ} (hp : ∀ p ∈ particles, p < N)
    (h : gathering particles = .ok m) : m < N := by
  rw [gathering] at h
  cases hm : median particles with
  | none => rw [hm] at h; cases h
  | some q =>
    rw [hm] at h
    cases h
    have hq := median_lt hm hp
    exact pyInt_lt hq.1 hq.2

/-- In every reachable state every particle is a state of its space, neither
population is below its initial size, and no index that the next frame uses is
out of range, whatever is drawn: the clutter `gathering` and the bin `down_max`
are states, and none of the checked lookups of the frame (`state_intervals`,
`last_states[0]`, `tm2`, the two weight arrays, the resampled array, the
injected first states, the deleted position) raises an `IndexError`. -/
theorem reachable_indices_in_range (hst2 : c.st2.intervals ≠ [])
    (h : Run c rng Any frames s g) :
    Valid c s ∧
      (∀ m, gathering s.particles = .ok m → m < c.st.numStates) ∧
      (∀ a g₁ g₂ g₃ moved corrected dm, (downMotion c rng s.downParticles).run g₁ = .ok (moved, g₂) →
        (downCorrection c rng a moved).run g₂ = .ok (corrected, g₃) →
        downMax corrected = .ok dm → dm < c.st2.numStates) ∧
      ∀ a g₁ e, (processFrame c rng a s).run g₁ = .error e → e ≠ .indexError := by
  have hv := h.valid hst2
  refine ⟨hv, fun m hm ↦ gathering_lt hv.particles hm, ?_, ?_⟩
  · intro a g₁ g₂ g₃ moved corrected dm hmove hcorr hdm
    have hmoved := (meets_downMotion (S := False) s.downParticles).ok hmove
    have hcorrected := (meets_downCorrection (S := False) fun hf ↦ hf.elim).ok hcorr
    rcases hcorrected.2 dm (argmax_bincount_mem hdm) with hm | hf
    · exact hmoved.2 hv.downParticles dm hm
    · exact BarStateSpace.firsts_lt hf
  · intro a g₁ e he
    exact (meets_processFrame (S := True) fun _ ↦ hv).error he trivial

theorem reachable_indices_in_range_small :
    ∃ s, Run (small 0 (4 / 10)) Rng.least Any [silence, silence, loudDownbeat] s () ∧
      Valid (small 0 (4 / 10)) s := by
  have hrun : Run (small 0 (4 / 10)) Rng.least Any [silence, silence, loudDownbeat]
      ⟨2, [⟨1 / 25, 1⟩], [0, 0], [0, 2]⟩ () := run_of_simulate (by decide +kernel)
  exact ⟨_, hrun, (reachable_indices_in_range (by decide) hrun).1⟩

end BeatNet
