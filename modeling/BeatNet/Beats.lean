import BeatNet.Runs
import BeatNet.Library.Logs

namespace BeatNet

open Numpy Library.Effects Library.Logs

variable {G : Type} {c : Config} {rng : Rng G} {P : Cascade → Activation → Prop}
  {s s' : Cascade} {g g' : G} {a : Activation} {frames frames' : List Activation}

def Follows (gap : ℚ) (r r' : Row) : Prop :=
  r.time < r'.time ∧ gap < r'.time - r.time ∧ ¬ (r.label = 1 ∧ r'.label = 1)

def Labelled (r : Row) : Prop := r.label = 1 ∨ r.label = 2

/-- The reports of a beat tracker: labelled rows at times that increase by
more than `gap`, no downbeat right after a downbeat. -/
abbrev BeatLog (gap : ℚ) := Log Labelled (Follows gap)

def Config.gap (c : Config) : ℚ := 4 / 10 * c.T * c.st.shortest

theorem Config.gap_nonneg (c : Config) : 0 ≤ c.gap := by
  have hT := c.T_pos.le
  rw [gap]
  positivity

theorem beatGate_true (h : beatGate c s = .ok true) :
    ∃ i n : ℕ, c.st.stateIntervals[i]? = some n ∧
      c.later s.counter (4 / 10 * c.T * n) (c.time s.counter - s.last.time) = true := by
  rw [beatGate] at h
  cases hg : gathering s.particles with
  | error e => rw [hg] at h; cases h
  | ok i =>
    rw [hg] at h
    cases hi : item c.st.stateIntervals i with
    | error e => simp only [bind, Except.bind, hi] at h; cases h
    | ok n =>
      simp only [bind, Except.bind, hi] at h
      have hb := Except.ok.inj h
      rw [Bool.and_eq_true] at hb
      exact ⟨i, n, item_ok.mp hi, hb.2⟩

theorem Due.gap (hexact : c.Exact) (h : Due c s) :
    c.gap < c.time (s.counter + 1) - s.last.time := by
  obtain ⟨i, n, hi, hlater⟩ := beatGate_true h
  have hn : (c.st.shortest : ℚ) ≤ n :=
    Nat.cast_le.mpr (BarStateSpace.shortest_le_stateIntervals hi)
  have hlt : 4 / 10 * c.T * n < c.time (s.counter + 1) - s.last.time := by
    rw [hexact.later] at hlater
    exact of_decide_eq_true hlater
  have hT := c.T_pos.le
  calc c.gap = 4 / 10 * c.T * c.st.shortest := rfl
    _ ≤ 4 / 10 * c.T * n := by gcongr
    _ < _ := hlt

theorem reported_time {dm : ℕ} {r : Row} (h : r ∈ reported c a dm s) :
    r.time = c.time s.counter := by
  rw [reported] at h
  split_ifs at h <;> cases h <;> rfl

theorem reported_labelled {dm : ℕ} {r : Row} (h : r ∈ reported c a dm s) : Labelled r := by
  rw [reported] at h
  split_ifs at h <;> cases h
  · exact .inl rfl
  · exact .inr rfl

theorem reported_alternates {dm : ℕ} {r : Row} (h : r ∈ reported c a dm s) :
    ¬ (s.last.label = 1 ∧ r.label = 1) := by
  intro hboth
  obtain ⟨hlast, hr⟩ := hboth
  rw [reported] at h
  split_ifs at h with hdown hbeat
  · exact hdown.2.1 hlast
  · cases h
    cases hr
  · cases h

theorem last_eq {r : Row} (h : r ∈ s.beats.getLast?) : s.last = r := by
  rw [Cascade.last, List.getLastD_eq_getLast?, Option.mem_def.mp h]
  rfl

theorem reported_admits (hexact : c.Exact) {l : BeatLog c.gap} (hl : l.entries = s.beats)
    (hdue : Due c s) {dm : ℕ} {r : Row} (h : r ∈ reported c a dm s.tick) : l.Admits r := by
  refine ⟨reported_labelled h, fun q hq ↦ ?_⟩
  have hlast : s.last = q := last_eq (hl ▸ hq)
  have hgap := hdue.gap hexact
  have htime : r.time = c.time (s.counter + 1) := reported_time h
  have hpos := c.gap_nonneg
  rw [hlast, ← htime] at hgap
  refine ⟨by linarith, hgap, ?_⟩
  have halt : ¬ (s.last.label = 1 ∧ r.label = 1) := reported_alternates (s := s.tick) h
  rwa [hlast] at halt

/-- The cascade refines the log of its reports: a frame is a step of the log. -/
theorem FrameStep.log (hexact : c.Exact) (h : FrameStep c a s s') {l : BeatLog c.gap}
    (hl : l.entries = s.beats) : ∃ l' : BeatLog c.gap, l'.entries = s'.beats ∧ l.Step l' := by
  rcases h.beats with ⟨hdue, dm, hbeats⟩ | ⟨_, hbeats⟩
  · rw [hbeats, ← hl]
    exact Log.exists_step fun r hr ↦ reported_admits hexact hl hdue hr
  · exact ⟨l, hl.trans hbeats.symm, .stay l⟩

theorem Run.log (hexact : c.Exact) (h : Run c rng P frames s g) :
    ∃ l : BeatLog c.gap, l.entries = s.beats := by
  refine h.invariant (I := fun t ↦ ∃ l : BeatLog c.gap, l.entries = t.beats) ?_ ?_
  · intro t ht
    exact ⟨Log.empty, ht.beats.symm⟩
  · rintro t a t' _ hf ⟨l, hl⟩
    obtain ⟨l', hl', _⟩ := hf.log hexact hl
    exact ⟨l', hl'⟩

theorem FrameStep.appends (h : FrameStep c a s s') :
    s'.beats = s.beats ∨ ∃ r, Labelled r ∧ r.time = c.time s'.counter ∧
      s'.beats = s.beats ++ [r] := by
  rcases h.beats with ⟨_, dm, hbeats⟩ | ⟨_, hbeats⟩
  · cases hr : reported c a dm s.tick with
    | none => exact .inl (by simpa [hr] using hbeats)
    | some r =>
      refine .inr ⟨r, reported_labelled hr, ?_, by simpa [hr] using hbeats⟩
      rw [h.counter]
      exact reported_time hr
  · exact .inl hbeats

theorem Steps.append_only (h : Steps c rng P s g frames s' g') : s.beats <+: s'.beats := by
  refine h.invariant (I := fun t ↦ s.beats <+: t.beats) (fun t a t' _ hf ht ↦ ?_)
    List.prefix_rfl
  rcases hf.appends with hb | ⟨r, _, _, hb⟩
  · rwa [hb]
  · rw [hb]
    exact ht.trans (List.prefix_append t.beats [r])

theorem Config.time_mono {i j : ℤ} (h : i ≤ j) : c.time i ≤ c.time j := by
  have hT := c.T_pos.le
  have hij : (i : ℚ) ≤ j := Int.cast_le.mpr h
  simp only [time]
  gcongr

theorem Steps.later (h : Steps c rng P s g frames s' g') :
    ∃ later, s'.beats = s.beats ++ later ∧ ∀ r ∈ later, c.time (s.counter + 1) ≤ r.time := by
  have hI : s.counter ≤ s'.counter ∧ ∃ later, s'.beats = s.beats ++ later ∧
      ∀ r ∈ later, c.time (s.counter + 1) ≤ r.time := by
    refine h.invariant (I := fun t ↦ s.counter ≤ t.counter ∧ ∃ later, t.beats = s.beats ++ later ∧
      ∀ r ∈ later, c.time (s.counter + 1) ≤ r.time) ?_ ⟨le_rfl, [], by simp, by simp⟩
    rintro t a t' _ hf ⟨hcount, later, hbeats, hlater⟩
    have hcounter := hf.counter
    refine ⟨by omega, ?_⟩
    rcases hf.appends with hb | ⟨r, _, hr, hb⟩
    · exact ⟨later, hb.trans hbeats, hlater⟩
    · refine ⟨later ++ [r], by rw [hb, hbeats, List.append_assoc], fun x hx ↦ ?_⟩
      rcases List.mem_append.mp hx with hx | hx
      · exact hlater x hx
      · rw [List.mem_singleton.mp hx, hr]
        exact Config.time_mono (by omega)
  exact hI.2

/-- Over a whole run the path is a well-formed log: its rows are labelled 1 or
2, their times increase by more than the gap, no downbeat follows a downbeat.
The next frame appends at most one row, which carries the time of that frame,
and further calls of `process` return it with rows appended. -/
theorem well_formed_beats (hexact : c.Exact) (h : Run c rng Any frames s g) :
    s.beats.IsChain (fun r r' ↦ r.time < r'.time ∧
      4 / 10 * c.T * c.st.shortest < r'.time - r.time ∧ ¬ (r.label = 1 ∧ r'.label = 1)) ∧
    (∀ r ∈ s.beats, r.label = 1 ∨ r.label = 2) ∧
    (∀ a s' g', (processFrame c rng a s).run g = .ok (s', g') →
      s'.counter = frames.length ∧
        (s'.beats = s.beats ∨ ∃ r, (r.label = 1 ∨ r.label = 2) ∧
          r.time = c.offset + s'.counter * c.T ∧ s'.beats = s.beats ++ [r])) ∧
    ∀ first calls r g', (processCalls c rng first calls s).run g = .ok (r, g') →
      r.2 = r.1.beats ∧ s.beats <+: r.2 := by
  obtain ⟨l, hl⟩ := h.log hexact
  refine ⟨?_, ?_, fun a s' g' hs ↦ ?_, fun first calls r g' hs ↦ ?_⟩
  · rw [← hl]
    exact l.linked
  · rw [← hl]
    exact l.sound
  · have hf := frameStep_of_ok hs
    refine ⟨?_, hf.appends⟩
    rw [hf.counter, h.counter]
    ring
  · obtain ⟨⟨frames', hsteps⟩, hrows⟩ := Steps.of_processCalls hs
    exact ⟨hrows, hrows ▸ hsteps.append_only⟩

theorem well_formed_beats_small :
    ∃ s, Run (small 0 (4 / 10)) Rng.least Any [silence, silence, loudDownbeat, silence,
        loudDownbeat] s () ∧ s.beats.length = 2 ∧
      ∀ r ∈ s.beats, r.label = 1 ∨ r.label = 2 := by
  have hrun : Run (small 0 (4 / 10)) Rng.least Any [silence, silence, loudDownbeat, silence,
      loudDownbeat] ⟨4, [⟨1 / 25, 1⟩, ⟨2 / 25, 2⟩], [2, 0, 0], [0, 0, 2]⟩ () :=
    run_of_simulate (by decide +kernel)
  exact ⟨_, hrun, rfl, (well_formed_beats (small_exact 0 (4 / 10)) hrun).2.1⟩

end BeatNet
