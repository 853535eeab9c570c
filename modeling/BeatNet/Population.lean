import BeatNet.Validity

namespace BeatNet

open Numpy Library.Effects

variable {G : Type} {c : Config} {rng : Rng G} {P : Cascade → Activation → Prop}
  {s s' : Cascade} {g g' : G} {a : Activation} {frames : List Activation}

namespace FrameStep

theorem particles_le (h : FrameStep c a s s') : s.particles.length ≤ s'.particles.length := by
  obtain ⟨moved, hmoved, hinj, _⟩ := h.beat
  exact hmoved.1 ▸ hinj.length_le

theorem particles_quiet (h : FrameStep c a s s') (ha : c.gated a ≤ 8 / 10) :
    s'.particles.length = s.particles.length := by
  obtain ⟨moved, hmoved, hinj, _⟩ := h.beat
  exact (hinj.quiet ha).trans hmoved.1

theorem particles_loud (h : FrameStep c a s s') (hk : 4 ≤ c.st.intervals.length)
    (ha : 8 / 10 < c.gated a) : s.particles.length < s'.particles.length := by
  obtain ⟨moved, hmoved, hinj, _⟩ := h.beat
  obtain ⟨start, hstart, hlen⟩ := hinj.loud ha
  have hne : arange start c.st.intervals.length 6 ≠ [] := fun hnil ↦ by
    have hle := (arange_eq_nil (by decide)).mp hnil
    omega
  have hpos := List.length_pos_iff.mpr hne
  have hm := hmoved.1
  omega

theorem downParticles_length (h : FrameStep c a s s') :
    (Due c s → s'.downParticles.length + downDeleted a =
      s.downParticles.length + downInjected c a) ∧
    (¬ Due c s → s'.downParticles.length = s.downParticles.length) := by
  obtain ⟨t, hs', ⟨hdue, ht⟩ | ⟨hdue, rfl⟩⟩ := h.stage
  · refine ⟨fun _ ↦ ?_, fun hn ↦ absurd hdue hn⟩
    rw [hs']
    exact ht.length
  · refine ⟨fun hd ↦ absurd hd hdue, fun _ ↦ ?_⟩
    rw [hs']
    rfl

end FrameStep

theorem Steps.particles_length (h : Steps c rng P s g frames s' g') :
    s.particles.length ≤ s'.particles.length ∧
      ((∀ a ∈ frames, c.gated a ≤ 8 / 10) → s'.particles.length = s.particles.length) ∧
      (4 ≤ c.st.intervals.length → s'.particles.length = s.particles.length →
        ∀ a ∈ frames, c.gated a ≤ 8 / 10) := by
  induction h with
  | nil => simp
  | cons _ hs _ ih =>
    have hf := frameStep_of_ok hs
    obtain ⟨hle, hquiet, hexact⟩ := ih
    have hle' := hf.particles_le
    refine ⟨hle'.trans hle, fun hall ↦ ?_, fun hk heq ↦ ?_⟩
    · have hrest := hquiet fun b hb ↦ hall b (List.mem_cons_of_mem _ hb)
      exact hrest.trans (hf.particles_quiet (hall _ List.mem_cons_self))
    · rw [List.forall_mem_cons]
      refine ⟨?_, hexact hk (by omega)⟩
      by_contra hloud
      have hlt := hf.particles_loud hk (not_le.mp hloud)
      omega

/-- The beat population keeps its size as long as no frame is loud. With four
tempi or more this is the only way: every loud frame leaves its injected
particles behind. -/
theorem beat_population (h : Run c rng Any frames s g) :
    ((∀ a ∈ frames, c.gated a ≤ 8 / 10) → s.particles.length = c.particleSize) ∧
      (4 ≤ c.st.intervals.length →
        (s.particles.length = c.particleSize ↔ ∀ a ∈ frames, c.gated a ≤ 8 / 10)) := by
  obtain ⟨g₀, s₀, g₁, hb, hs⟩ := h
  obtain ⟨_, hquiet, hexact⟩ := hs.particles_length
  have hsize := (meets_build.ok hb).particles
  rw [hsize] at hquiet hexact
  exact ⟨hquiet, fun hk ↦ ⟨hexact hk, hquiet⟩⟩

theorem beat_population_silence :
    ∃ s, Run (small 0 (4 / 10)) Rng.least Any [silence, silence] s () ∧
      s.particles.length = (small 0 (4 / 10)).particleSize := by
  have hrun : Run (small 0 (4 / 10)) Rng.least Any [silence, silence] ⟨1, [], [2], [0]⟩ () :=
    run_of_simulate (by decide +kernel)
  exact ⟨_, hrun, (beat_population hrun).1 (by decide +kernel)⟩

/-- One loud frame leaves two beat particles where there was one. -/
theorem beat_population_not_conserved :
    ¬ ∀ frames s, Run (small 0 (4 / 10)) Rng.least Any frames s () →
      s.particles.length = (small 0 (4 / 10)).particleSize := by
  intro h
  have hrun : Run (small 0 (4 / 10)) Rng.least Any [loudBeat] ⟨0, [], [1, 0], [0]⟩ () :=
    run_of_simulate (by decide +kernel)
  have hlen := h _ _ hrun
  cases hlen

def NoInjection (c : Config) (s : Cascade) (a : Activation) : Prop :=
  Due c s → a.downbeat ≤ 7 / 10

theorem FrameStep.downParticles_noInjection (h : FrameStep c a s s') (ha : NoInjection c s a) :
    s'.downParticles.length = s.downParticles.length := by
  by_cases hdue : Due c s
  · have hlen := h.downParticles_length.1 hdue
    have hquiet := (ha hdue).not_gt
    simp only [downDeleted, downInjected, if_neg hquiet] at hlen
    omega
  · exact h.downParticles_length.2 hdue

theorem FrameStep.downParticles_injection (h : FrameStep c a s s')
    (hk : 2 ≤ c.st2.intervals.length) (ha : ¬ NoInjection c s a) :
    s.downParticles.length < s'.downParticles.length := by
  rw [NoInjection] at ha
  push Not at ha
  have hlen := h.downParticles_length.1 ha.1
  simp only [downDeleted, downInjected, if_pos ha.2] at hlen
  omega

theorem FrameStep.downParticles_le (h : FrameStep c a s s') (hk : 2 ≤ c.st2.intervals.length) :
    s.downParticles.length ≤ s'.downParticles.length := by
  by_cases ha : NoInjection c s a
  · exact (h.downParticles_noInjection ha).ge
  · exact (h.downParticles_injection hk ha).le

theorem Steps.downParticles_length (hk : 2 ≤ c.st2.intervals.length)
    (h : Steps c rng Any s g frames s' g') :
    s.downParticles.length ≤ s'.downParticles.length ∧
      (s'.downParticles.length = s.downParticles.length →
        Steps c rng (NoInjection c) s g frames s' g') := by
  induction h with
  | nil s g => exact ⟨le_rfl, fun _ ↦ .nil s g⟩
  | cons _ hs _ ih =>
    have hf := frameStep_of_ok hs
    have hle := hf.downParticles_le hk
    refine ⟨hle.trans ih.1, fun heq ↦ ?_⟩
    have hrest := ih.2 (by have := ih.1; omega)
    refine .cons ?_ hs hrest
    by_contra ha
    have hlt := hf.downParticles_injection hk ha
    have := ih.1
    omega

theorem Run.downParticles_noInjection (h : Run c rng (NoInjection c) frames s g) :
    s.downParticles.length = c.downParticleSize :=
  h.invariant (fun _ hs ↦ hs.downParticles)
    fun _ _ _ ha hf heq ↦ (hf.downParticles_noInjection ha).trans heq

/-- The downbeat population keeps its size exactly in the runs in which the
downbeat stage never meets a downbeat activation above 0.7. -/
theorem downbeat_population (hk : 2 ≤ c.st2.intervals.length) (h : Run c rng Any frames s g) :
    s.downParticles.length = c.downParticleSize ↔ Run c rng (NoInjection c) frames s g := by
  refine ⟨fun heq ↦ ?_, Run.downParticles_noInjection⟩
  obtain ⟨g₀, s₀, g₁, hb, hs⟩ := h
  have hsize := (meets_build.ok hb).downParticles
  exact ⟨g₀, s₀, g₁, hb, (hs.downParticles_length hk).2 (heq.trans hsize.symm)⟩

theorem downbeat_population_silence :
    ∃ s, Run (small 0 (4 / 10)) Rng.least (NoInjection (small 0 (4 / 10)))
      [silence, silence, silence] s () := by
  have hrun : Run (small 0 (4 / 10)) Rng.least Any [silence, silence, silence]
      ⟨2, [], [0], [1]⟩ () := run_of_simulate (by decide +kernel)
  exact ⟨_, (downbeat_population (by decide) hrun).mp rfl⟩

/-- One confident downbeat leaves two downbeat particles where there was one. -/
theorem downbeat_population_not_conserved :
    ¬ ∀ frames s, Run (small 0 (4 / 10)) Rng.least Any frames s () →
      s.downParticles.length = (small 0 (4 / 10)).downParticleSize := by
  intro h
  have hrun : Run (small 0 (4 / 10)) Rng.least Any [silence, silence, loudDownbeat]
      ⟨2, [⟨1 / 25, 1⟩], [0, 0], [0, 2]⟩ () := run_of_simulate (by decide +kernel)
  have hlen := h _ _ hrun
  cases hlen

end BeatNet
