import BeatNet.Beats

namespace BeatNet

open Numpy Library.Effects

variable {G : Type} {c : Config} {rng : Rng G} {P : Cascade → Activation → Prop}
  {s s' : Cascade} {g g' : G} {a : Activation} {frames frames' : List Activation}

section Refractory

theorem exists_reported (dm : ℕ) (ha : 4 / 10 < c.gated a) :
    ∃ r, reported c a dm s = some r := by
  rw [reported]
  rw [if_pos ha]
  split_ifs
  · exact ⟨_, rfl⟩
  · exact ⟨_, rfl⟩

theorem FrameStep.last_time (h : FrameStep c a s s') (hdue : Due c s)
    (ha : 4 / 10 < c.gated a) : s'.last.time = c.time (s.counter + 1) := by
  rcases h.beats with ⟨_, dm, hbeats⟩ | ⟨hn, _⟩
  · obtain ⟨r, hr⟩ := exists_reported (s := s.tick) dm ha
    have hlast : s'.last = r := last_eq (by simp [hbeats, hr])
    have htime : r.time = c.time (s.counter + 1) := reported_time hr
    rw [hlast, htime]
  · exact absurd hdue hn

theorem Config.time_sub (i j : ℤ) : c.time i - c.time j = ((i - j : ℤ) : ℚ) * (1 / c.fps) := by
  simp only [time, T]
  push_cast
  ring

theorem Steps.last_at_frame {k : ℤ} (h : Steps c rng P s g frames s' g') (hk : k ≤ s.counter)
    (hs : s.last.time = c.time k) : ∃ j, k ≤ j ∧ s'.last.time = c.time j := by
  have hI : k ≤ s'.counter ∧ ∃ j, k ≤ j ∧ s'.last.time = c.time j := by
    refine h.invariant (I := fun t ↦ k ≤ t.counter ∧ ∃ j, k ≤ j ∧ t.last.time = c.time j) ?_
      ⟨hk, k, le_rfl, hs⟩
    rintro t a t' _ hf ⟨hkt, j, hj, ht⟩
    have hcounter := hf.counter
    refine ⟨by omega, ?_⟩
    rcases hf.appends with hb | ⟨r, _, hr, hb⟩
    · have hlast : t'.last = t.last := by rw [Cascade.last, hb, Cascade.last]
      exact ⟨j, hj, hlast ▸ ht⟩
    · have hlast : t'.last = r := last_eq (by simp [hb])
      exact ⟨t'.counter, by omega, hlast ▸ hr⟩
  exact hI.2

/-- No distance of exactly 0.4 of the shortest interval, if this is a whole number of frames, is
taken for a longer one. -/
def Config.TiesClosed (c : Config) : Prop :=
  5 ∣ c.st.shortest → ∀ k, c.later k c.gap c.gap = false

theorem Config.Exact.tiesClosed (hexact : c.Exact) : c.TiesClosed := by
  intro _ k
  rw [hexact.later, decide_eq_false_iff_not]
  exact lt_irrefl _

theorem Due.frames_apart (hties : c.TiesClosed) (hdue : Due c s) {j : ℤ}
    (hlast : s.last.time = c.time j) :
    4 / 10 * (c.st.shortest : ℚ) < ((s.counter + 1 - j : ℤ) : ℚ) := by
  obtain ⟨i, n, hi, hlater⟩ := beatGate_true hdue
  have hn : (c.st.shortest : ℚ) ≤ n :=
    Nat.cast_le.mpr (BarStateSpace.shortest_le_stateIntervals hi)
  have htime : c.time s.tick.counter - s.tick.last.time =
      ((s.counter + 1 - j : ℤ) : ℚ) * (1 / c.fps) := by
    rw [← Config.time_sub, ← hlast]
    rfl
  rw [htime] at hlater
  have hle := c.le_of_later _ _ _ hlater
  refine lt_of_le_of_ne (by linarith) fun heq ↦ ?_
  -- at equality the interval is the shortest one and 0.4 of it a whole number
  have hshortest : n = c.st.shortest := by
    have hcast : (n : ℚ) = c.st.shortest := by linarith
    exact_mod_cast hcast
  have hwhole : 2 * (c.st.shortest : ℤ) = 5 * (s.counter + 1 - j) := by
    have hcast : 2 * (c.st.shortest : ℚ) = 5 * ((s.counter + 1 - j : ℤ) : ℚ) := by linarith
    exact_mod_cast hcast
  have hclosed := hties (by omega) s.tick.counter
  have hinterval : 4 / 10 * (1 / c.fps) * (n : ℚ) = c.gap := by
    rw [hshortest]
    rfl
  have hdist : ((s.counter + 1 - j : ℤ) : ℚ) * (1 / c.fps) = c.gap := by
    rw [← heq, ← hinterval, hshortest]
    ring
  rw [hdist] at hlater
  change c.later s.tick.counter (4 / 10 * (1 / c.fps) * n) c.gap = true at hlater
  rw [hinterval, hclosed] at hlater
  cases hlater

def Audible (c : Config) (s : Cascade) (a : Activation) : Prop := Due c s → 4 / 10 < c.gated a

/-- In a run in which the downbeat stage meets meaningful activations only, any
two frames at which it runs are more than 0.4 of the shortest interval apart.
The counters are the numbers of the two frames, less one. -/
theorem downbeat_stage_spacing (hties : c.TiesClosed) (h : Run c rng (Audible c) frames s g)
    (hdue : Due c s) (hs : Steps c rng (Audible c) s g (a :: frames') s' g') (hdue' : Due c s') :
    s.counter + 1 = frames.length ∧ s'.counter + 1 = (frames ++ a :: frames').length ∧
      4 / 10 * (c.st.shortest : ℚ) < s'.counter - s.counter := by
  refine ⟨by rw [h.counter]; ring, by rw [(h.extend hs).counter]; ring, ?_⟩
  cases hs with
  | @cons _ t _ _ _ _ _ _ ha hrun hrest =>
    have hf := frameStep_of_ok hrun
    -- the first of the two frames reports, and the last report never gets older than that
    obtain ⟨j, hj, hlast⟩ :=
      hrest.last_at_frame hf.counter.ge (hf.last_time hdue (ha hdue))
    have hapart := hdue'.frames_apart hties hlast
    have hcast : ((s'.counter + 1 - j : ℤ) : ℚ) ≤ ((s'.counter - s.counter : ℤ) : ℚ) :=
      Int.cast_le.mpr (by omega)
    push_cast at hapart hcast
    linarith

theorem downbeat_stage_spacing_small :
    ∃ s s', Due (small 0 (4 / 10)) s ∧ Due (small 0 (4 / 10)) s' ∧
      s.counter + 1 = 2 ∧ s'.counter + 1 = 4 ∧
      4 / 10 * ((small 0 (4 / 10)).st.shortest : ℚ) < s'.counter - s.counter := by
  have hclear : ∀ frames : List Activation, (∀ a ∈ frames, a = clearBeat) → ∀ a ∈ frames, ∀ s,
      Any s a → Audible (small 0 (4 / 10)) s a := by
    rintro frames hall a ha s _ _
    rw [hall a ha]
    decide +kernel
  have hrun : Run (small 0 (4 / 10)) Rng.least Any [clearBeat, clearBeat] ⟨1, [], [2], [0]⟩ () :=
    run_of_simulate (by decide +kernel)
  have hsteps : Steps (small 0 (4 / 10)) Rng.least Any ⟨1, [], [2], [0]⟩ ()
      [clearBeat, clearBeat] ⟨3, [⟨1 / 25, 2⟩], [1], [1]⟩ () :=
    Steps.iff_processFrames.mpr (by decide +kernel)
  have hdue : Due (small 0 (4 / 10)) ⟨1, [], [2], [0]⟩ := by decide +kernel
  have hdue' : Due (small 0 (4 / 10)) ⟨3, [⟨1 / 25, 2⟩], [1], [1]⟩ := by decide +kernel
  exact ⟨_, _, hdue, hdue', downbeat_stage_spacing
    (small_exact 0 (4 / 10)).tiesClosed (hrun.mono (hclear _ (by simp))) hdue
    (hsteps.mono (hclear _ (by simp))) hdue'⟩

/-- In silence nothing is reported, and the stage runs in two frames in a row. -/
theorem downbeat_stage_repeats :
    ¬ ∀ frames s a frames' s', Run (small 0 (4 / 10)) Rng.least Any frames s () →
      Due (small 0 (4 / 10)) s →
      Steps (small 0 (4 / 10)) Rng.least Any s () (a :: frames') s' () →
      Due (small 0 (4 / 10)) s' →
      4 / 10 * ((small 0 (4 / 10)).st.shortest : ℚ) < s'.counter - s.counter := by
  intro h
  have hrun : Run (small 0 (4 / 10)) Rng.least Any [silence, silence] ⟨1, [], [2], [0]⟩ () :=
    run_of_simulate (by decide +kernel)
  have hstep : Steps (small 0 (4 / 10)) Rng.least Any ⟨1, [], [2], [0]⟩ () [silence]
      ⟨2, [], [0], [1]⟩ () := Steps.iff_processFrames.mpr (by decide +kernel)
  have hlt := h _ _ _ _ _ hrun (by decide +kernel) hstep (by decide +kernel)
  revert hlt
  decide +kernel

end Refractory

section InformationGate

theorem gated_of_lt (h : max a.beat a.downbeat < c.igThreshold) : c.gated a = 3 / 100 := by
  rw [Config.gated]
  rw [if_pos h]

theorem reported_of_lt {dm : ℕ} (h : max a.beat a.downbeat < c.igThreshold) :
    reported c a dm s =
      if dm ∈ c.st2.firsts ∧ s.last.label ≠ 1 ∧ 4 / 10 < a.downbeat then
        some ⟨c.time s.counter, 1⟩
      else none := by
  have hg : ¬ 4 / 10 < c.gated a := by
    rw [gated_of_lt h]
    norm_num
  rw [reported]
  rw [if_neg hg]

def Unalarmed (c : Config) (s : Cascade) (a : Activation) : Prop :=
  max a.beat a.downbeat < c.igThreshold → Due c s → a.downbeat ≤ 4 / 10 ∨ s.last.label = 1

theorem FrameStep.beats_of_gated (h : FrameStep c a s s') (hu : Unalarmed c s a)
    (ha : max a.beat a.downbeat < c.igThreshold) : s'.beats = s.beats := by
  rcases h.beats with ⟨hdue, dm, hbeats⟩ | ⟨_, hbeats⟩
  · have hnot : ¬ (dm ∈ c.st2.firsts ∧ s.tick.last.label ≠ 1 ∧ 4 / 10 < a.downbeat) := by
      intro hpass
      obtain ⟨_, hlabel, hdown⟩ := hpass
      rcases hu ha hdue with hle | hone
      · exact hle.not_gt hdown
      · exact hlabel hone
    rw [hbeats, reported_of_lt ha, if_neg hnot]
    exact List.append_nil _
  · exact hbeats

theorem meets_gatedStage_particles (due : Bool) (s : Cascade) :
    Meets (gatedStage c rng a due s) (fun t ↦ t.particles = s.particles) fun _ ↦ True := by
  cases due with
  | false => exact Meets.pure rfl
  | true =>
    have hdown : Meets (downbeatStage c rng a s) (Staged c a s) (Guarded False) :=
      meets_downbeatStage fun hf ↦ hf.elim
    refine hdown.mono (fun t ht ↦ ?_) fun _ _ ↦ trivial
    obtain ⟨dm, hdm⟩ := ht.report
    rw [hdm]
    rfl

theorem processFrame_motion (ha : c.gated a ≤ 1 / 10)
    (h : (processFrame c rng a s).run g = .ok (s', g')) :
    ∃ k, (beatMotion c rng s.particles).run k = .ok (s'.particles, g') := by
  obtain ⟨due, k₁, _, h⟩ := run_bind_ok.mp h
  obtain ⟨t, k₂, ht, h⟩ := run_bind_ok.mp h
  obtain ⟨particles, k₃, hp, h⟩ := run_bind_ok.mp h
  obtain ⟨hs', rfl⟩ := run_pure_ok.mp h
  obtain ⟨moved, k₄, hm, hc⟩ := run_bind_ok.mp hp
  have htp := (meets_gatedStage_particles due s.tick).ok ht
  rw [beatCorrection] at hc
  rw [if_neg ha.not_gt] at hc
  obtain ⟨rfl, rfl⟩ := run_pure_ok.mp hc
  rw [htp] at hm
  subst hs'
  exact ⟨k₂, hm⟩

/-- In a run in which no raw downbeat gets through the gate, a frame below the
information threshold appends no row, and motion alone leads from the beat
particles before it to those after it. -/
theorem information_gate (h : Run c rng (Unalarmed c) (frames ++ a :: frames') s' g')
    (ha : max a.beat a.downbeat < c.igThreshold) :
    ∃ s g t g'', Run c rng (Unalarmed c) frames s g ∧
      (processFrame c rng a s).run g = .ok (t, g'') ∧
      Steps c rng (Unalarmed c) t g'' frames' s' g' ∧
      t.beats = s.beats ∧ ∃ k, (beatMotion c rng s.particles).run k = .ok (t.particles, g'') := by
  obtain ⟨g₀, s₀, g₁, hb, hs⟩ := h
  obtain ⟨s, g, hs₁, hs₂⟩ := hs.split
  cases hs₂ with
  | @cons _ t _ _ g'' _ _ _ hu hrun hrest =>
    have hquiet : c.gated a ≤ 1 / 10 := by
      rw [gated_of_lt ha]
      norm_num
    exact ⟨s, g, t, g'', ⟨g₀, s₀, g₁, hb, hs₁⟩, hrun, hrest,
      (frameStep_of_ok hrun).beats_of_gated hu ha, processFrame_motion hquiet hrun⟩

theorem information_gate_small :
    ∃ s t g'', Run (small 0 (9 / 10)) Rng.least (Unalarmed (small 0 (9 / 10)))
        [silence, silence] s () ∧
      (processFrame (small 0 (9 / 10)) Rng.least clearBeat s).run () = .ok (t, g'') ∧
      t.beats = s.beats := by
  have hrun : Run (small 0 (9 / 10)) Rng.least Any [silence, silence, clearBeat]
      ⟨2, [], [0], [1]⟩ () := run_of_simulate (by decide +kernel)
  have hlow : ∀ a ∈ [silence, silence, clearBeat], ∀ s, Any s a →
      Unalarmed (small 0 (9 / 10)) s a := by
    intro a ha s _ _ _
    have hdown : ∀ a ∈ [silence, silence, clearBeat], a.downbeat ≤ 4 / 10 := by decide +kernel
    exact .inl (hdown a ha)
  obtain ⟨s, _, t, g'', h₁, h₂, _, h₃, _⟩ :=
    @information_gate _ _ _ _ _ clearBeat [silence, silence] [] (hrun.mono hlow) (by decide +kernel)
  exact ⟨s, t, g'', h₁, h₂, h₃⟩

/-- With the threshold at 0.9, a downbeat activation of 0.6 is reported all the same. -/
theorem information_gate_passed :
    ¬ ∀ frames s a s', Run (small 0 (9 / 10)) Rng.least Any frames s () →
      max a.beat a.downbeat < (small 0 (9 / 10)).igThreshold →
      (processFrame (small 0 (9 / 10)) Rng.least a s).run () = .ok (s', ()) →
      s'.beats = s.beats ∧ ∃ k, (beatMotion (small 0 (9 / 10)) Rng.least s.particles).run k =
        .ok (s'.particles, ()) := by
  intro h
  have hrun : Run (small 0 (9 / 10)) Rng.least Any [silence, silence, silence]
      ⟨2, [], [0], [1]⟩ () := run_of_simulate (by decide +kernel)
  have hstep : (processFrame (small 0 (9 / 10)) Rng.least faintDownbeat ⟨2, [], [0], [1]⟩).run () =
      .ok (⟨3, [⟨3 / 50, 1⟩], [1], [0]⟩, ()) := by decide +kernel
  have hgate := h _ _ _ _ hrun (by decide +kernel) hstep
  cases hgate.1

end InformationGate

end BeatNet
