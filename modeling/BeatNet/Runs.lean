import BeatNet.Frame
import Mathlib.Data.List.Forall2

namespace BeatNet

open Numpy Library.Effects

section Runs

variable {G : Type} (c : Config) (rng : Rng G)

/-- Frames processed one after the other, every one of them from a state and
on an activation that satisfy `P`. -/
inductive Steps (P : Cascade → Activation → Prop) :
    Cascade → G → List Activation → Cascade → G → Prop
  | nil (s : Cascade) (g : G) : Steps P s g [] s g
  | cons {s t u : Cascade} {g g' g'' : G} {a : Activation} {frames : List Activation} :
      P s a → (processFrame c rng a s).run g = .ok (t, g') → Steps P t g' frames u g'' →
      Steps P s g (a :: frames) u g''

/-- The state after the given frames, counted from the construction of the cascade. -/
def Run (P : Cascade → Activation → Prop) (frames : List Activation) (s : Cascade) (g : G) :
    Prop :=
  ∃ g₀ s₀ g₁, (build c rng).run g₀ = .ok (s₀, g₁) ∧ Steps c rng P s₀ g₁ frames s g

def Any (_ : Cascade) (_ : Activation) : Prop := True

def processCalls (first : Activations) (calls : List Activations) (s : Cascade) :
    Draw G (Cascade × List Row) := do
  let r ← process c rng first s
  calls.foldlM (fun r activations ↦ process c rng activations r.1) r

end Runs

variable {G : Type} {c : Config} {rng : Rng G} {P : Cascade → Activation → Prop}
  {s s' t : Cascade} {g g' g'' : G} {a : Activation} {frames frames' : List Activation}

theorem frameStep_of_ok (h : (processFrame c rng a s).run g = .ok (s', g')) :
    FrameStep c a s s' :=
  (meets_processFrame (S := False) fun hf ↦ hf.elim).ok h

namespace Steps

theorem append (h : Steps c rng P s g frames t g') (h' : Steps c rng P t g' frames' s' g'') :
    Steps c rng P s g (frames ++ frames') s' g'' := by
  induction h with
  | nil => exact h'
  | cons hp hs _ ih => exact .cons hp hs (ih h')

theorem split (h : Steps c rng P s g (frames ++ frames') s' g'') :
    ∃ t g', Steps c rng P s g frames t g' ∧ Steps c rng P t g' frames' s' g'' := by
  induction frames generalizing s g with
  | nil => exact ⟨s, g, .nil s g, h⟩
  | cons a frames ih =>
    cases h with
    | cons hp hs hrest =>
      obtain ⟨u, k, h₁, h₂⟩ := ih hrest
      exact ⟨u, k, .cons hp hs h₁, h₂⟩

theorem mono {Q : Cascade → Activation → Prop} (hPQ : ∀ a ∈ frames, ∀ s, P s a → Q s a)
    (h : Steps c rng P s g frames s' g') : Steps c rng Q s g frames s' g' := by
  induction h with
  | nil s g => exact .nil s g
  | cons hp hs _ ih =>
    rw [List.forall_mem_cons] at hPQ
    exact .cons (hPQ.1 _ hp) hs (ih hPQ.2)

theorem congr {Q : Cascade → Activation → Prop}
    (hPQ : ∀ s a s' g g', (processFrame c rng a s).run g = .ok (s', g') → (P s a ↔ Q s a)) :
    Steps c rng P s g frames s' g' ↔ Steps c rng Q s g frames s' g' := by
  apply Iff.intro
  · intro h
    induction h with
    | nil s g => exact .nil s g
    | cons hp hs _ ih => exact .cons ((hPQ _ _ _ _ _ hs).mp hp) hs ih
  · intro h
    induction h with
    | nil s g => exact .nil s g
    | cons hq hs _ ih => exact .cons ((hPQ _ _ _ _ _ hs).mpr hq) hs ih

theorem invariant {I : Cascade → Prop}
    (hstep : ∀ s a s', P s a → FrameStep c a s s' → I s → I s')
    (h : Steps c rng P s g frames s' g') (hs : I s) : I s' := by
  induction h with
  | nil => exact hs
  | cons hp hrun _ ih => exact ih (hstep _ _ _ hp (frameStep_of_ok hrun) hs)

theorem iff_processFrames :
    Steps c rng Any s g frames s' g' ↔ (processFrames c rng frames s).run g = .ok (s', g') := by
  apply Iff.intro
  · intro h
    induction h with
    | nil => rfl
    | cons _ hs _ ih => exact run_bind_ok.mpr ⟨_, _, hs, ih⟩
  · intro h
    induction frames generalizing s g with
    | nil =>
      obtain ⟨rfl, rfl⟩ := run_pure_ok.mp h
      exact .nil s g
    | cons a frames ih =>
      obtain ⟨t, k, hs, hrest⟩ := run_bind_ok.mp h
      exact .cons trivial hs (ih hrest)

theorem counter (h : Steps c rng P s g frames s' g') :
    s'.counter = s.counter + frames.length := by
  induction h with
  | nil => simp
  | cons _ hs _ ih =>
    rw [ih, (frameStep_of_ok hs).counter, List.length_cons]
    push_cast
    ring

end Steps

theorem processFrames_append_ok {u : Cascade × G} :
    (processFrames c rng (frames ++ frames') s).run g = .ok u ↔
      ∃ t g', (processFrames c rng frames s).run g = .ok (t, g') ∧
        (processFrames c rng frames' t).run g' = .ok u := by
  rw [processFrames]
  rw [List.foldlM_append]
  exact run_bind_ok

theorem process_ok {activations : Activations} {rows : List Row} :
    (process c rng activations s).run g = .ok ((s', rows), g') ↔
      ∃ frames, framesOf c activations = .ok frames ∧
        (processFrames c rng frames s).run g = .ok (s', g') ∧ rows = s'.beats := by
  apply Iff.intro
  · intro h
    obtain ⟨frames, k, hf, h⟩ := run_bind_ok.mp h
    obtain ⟨hf', rfl⟩ := run_lift_ok.mp hf
    obtain ⟨t, k', ht, h⟩ := run_bind_ok.mp h
    obtain ⟨he, rfl⟩ := run_pure_ok.mp h
    cases he
    exact ⟨frames, hf', ht, rfl⟩
  · intro h
    obtain ⟨frames, hf, ht, rfl⟩ := h
    exact run_bind_ok.mpr ⟨frames, g, run_lift_ok.mpr ⟨hf, rfl⟩,
      run_bind_ok.mpr ⟨s', g', ht, run_pure_ok.mpr ⟨rfl, rfl⟩⟩⟩

theorem processCalls_ok {first : Activations} {calls : List Activations} {rows : List Row} :
    (processCalls c rng first calls s).run g = .ok ((s', rows), g') ↔
      ∃ chunks, List.Forall₂ (fun x chunk ↦ framesOf c x = .ok chunk) (first :: calls) chunks ∧
        (processFrames c rng chunks.flatten s).run g = .ok (s', g') ∧ rows = s'.beats := by
  rw [processCalls]
  rw [run_bind_ok]
  induction calls generalizing first s g with
  | nil =>
    apply Iff.intro
    · intro h
      obtain ⟨r, k, hr, hrest⟩ := h
      obtain ⟨rfl, rfl⟩ := run_pure_ok.mp hrest
      obtain ⟨frames, hf, hrun, hrows⟩ := process_ok.mp hr
      exact ⟨[frames], .cons hf .nil, by simpa using hrun, hrows⟩
    · intro h
      obtain ⟨chunks, hchunks, hrun, hrows⟩ := h
      obtain ⟨frames, rest, hf, hrest, rfl⟩ := List.forall₂_cons_left_iff.mp hchunks
      rw [List.forall₂_nil_left_iff.mp hrest] at hrun
      refine ⟨(s', rows), g', process_ok.mpr ⟨frames, hf, by simpa using hrun, hrows⟩, rfl⟩
  | cons x calls ih =>
    apply Iff.intro
    · intro h
      obtain ⟨⟨t, _⟩, k, hr, hrest⟩ := h
      obtain ⟨frames, hf, hrun, _⟩ := process_ok.mp hr
      obtain ⟨chunks, hchunks, hrun', hrows⟩ := ih.mp (run_bind_ok.mp hrest)
      exact ⟨frames :: chunks, .cons hf hchunks,
        processFrames_append_ok.mpr ⟨t, k, hrun, hrun'⟩, hrows⟩
    · intro h
      obtain ⟨chunks, hchunks, hrun, hrows⟩ := h
      obtain ⟨frames, rest, hf, hrest, rfl⟩ := List.forall₂_cons_left_iff.mp hchunks
      obtain ⟨t, k, ht, hrun'⟩ := processFrames_append_ok.mp hrun
      exact ⟨(t, t.beats), k, process_ok.mpr ⟨frames, hf, ht, rfl⟩,
        run_bind_ok.mpr (ih.mpr ⟨rest, hrest, hrun', hrows⟩)⟩

theorem Steps.of_processCalls {first : Activations} {calls : List Activations} {rows : List Row}
    (h : (processCalls c rng first calls s).run g = .ok ((s', rows), g')) :
    (∃ frames, Steps c rng Any s g frames s' g') ∧ rows = s'.beats := by
  obtain ⟨chunks, _, hrun, hrows⟩ := processCalls_ok.mp h
  exact ⟨⟨chunks.flatten, Steps.iff_processFrames.mpr hrun⟩, hrows⟩

structure Fresh (c : Config) (s : Cascade) : Prop where
  counter : s.counter = -1
  beats : s.beats = []
  particles : s.particles.length = c.particleSize
  downParticles : s.downParticles.length = c.downParticleSize
  valid : Valid c s

theorem meets_build : Meets (build c rng) (Fresh c) (Eq .valueError) := by
  refine (meets_drawIntegers rfl _ _).bind fun ps hps ↦ ?_
  refine (meets_drawIntegers rfl _ _).bind fun qs hqs ↦ Meets.pure ?_
  have hp := List.perm_insertionSort (· ≤ ·) ps
  have hq := List.perm_insertionSort (· ≤ ·) qs
  have hplen := hp.length_eq.trans hps.1
  have hqlen := hq.length_eq.trans hqs.1
  refine ⟨rfl, rfl, hplen, hqlen, ⟨fun p hm ↦ ?_, fun q hm ↦ ?_, hplen.ge, hqlen.ge⟩⟩
  · have h := hps.2 p (hp.mem_iff.mp hm)
    omega
  · have h := hqs.2 q (hq.mem_iff.mp hm)
    omega

namespace Run

theorem mono {Q : Cascade → Activation → Prop} (hPQ : ∀ a ∈ frames, ∀ s, P s a → Q s a)
    (h : Run c rng P frames s g) : Run c rng Q frames s g := by
  obtain ⟨g₀, s₀, g₁, hb, hs⟩ := h
  exact ⟨g₀, s₀, g₁, hb, hs.mono hPQ⟩

theorem congr {Q : Cascade → Activation → Prop}
    (hPQ : ∀ s a s' g g', (processFrame c rng a s).run g = .ok (s', g') → (P s a ↔ Q s a)) :
    Run c rng P frames s g ↔ Run c rng Q frames s g := by
  simp only [Run, Steps.congr hPQ]

theorem extend (h : Run c rng P frames s g) (hs : Steps c rng P s g frames' s' g') :
    Run c rng P (frames ++ frames') s' g' := by
  obtain ⟨g₀, s₀, g₁, hb, h₀⟩ := h
  exact ⟨g₀, s₀, g₁, hb, h₀.append hs⟩

theorem invariant {I : Cascade → Prop} (hinit : ∀ s, Fresh c s → I s)
    (hstep : ∀ s a s', P s a → FrameStep c a s s' → I s → I s')
    (h : Run c rng P frames s g) : I s := by
  obtain ⟨g₀, s₀, g₁, hb, hs⟩ := h
  exact hs.invariant hstep (hinit s₀ (meets_build.ok hb))

theorem counter (h : Run c rng P frames s g) : s.counter = frames.length - 1 := by
  obtain ⟨g₀, s₀, g₁, hb, hs⟩ := h
  have hc := (meets_build.ok hb).counter
  rw [hs.counter, hc]
  ring

end Run

section Small

def smallBeats : BarStateSpace := ⟨[3, 4], by decide⟩

def smallBars : BarStateSpace := ⟨[2, 3], by decide⟩

def smallTransitions : BarTransitionModel smallBeats where
  rows := [⟨1, 0, 1⟩, ⟨2, 1, 1⟩, ⟨4, 3, 1⟩, ⟨5, 4, 1⟩, ⟨6, 5, 1⟩,
    ⟨0, 2, 1 / 2⟩, ⟨3, 2, 1 / 2⟩, ⟨0, 6, 1 / 2⟩, ⟨3, 6, 1 / 2⟩]
  from_last := by decide

def small (offset igThreshold : ℚ) : Config where
  st := smallBeats
  st2 := smallBars
  tm := smallTransitions
  om := ⟨.border [2, 0, 0, 2, 0, 0, 0], rfl⟩
  om2 := ⟨.border [2, 0, 2, 0, 0], rfl⟩
  lambdaD := 1 / 10
  particleSize := 1
  downParticleSize := 1
  offset := offset
  igThreshold := igThreshold
  fps := 50
  fps_pos := by norm_num
  start := pyInt (offset / (1 / 50))
  reach := 3
  later _ x y := decide (x < y)
  start_nonneg h := by
    have hquot : 0 ≤ offset / (1 / 50) := by positivity
    rw [pyInt, if_pos hquot]
    exact Int.floor_nonneg.mpr hquot
  le_of_later _ d n h := by
    have hlt := of_decide_eq_true h
    linarith

theorem small_exact (offset igThreshold : ℚ) : (small offset igThreshold).Exact where
  start := rfl
  reach := by
    change (3 : ℤ) = pyInt (7 / 100 / (1 / 50))
    decide +kernel
  later _ _ _ := rfl

/-- The state after the given frames when every draw is the smallest one. -/
def simulate (c : Config) (frames : List Activation) : Except PyError (Cascade × Unit) :=
  (do let s ← build c Rng.least; processFrames c Rng.least frames s).run ()

theorem run_of_simulate {c : Config} {frames : List Activation} {s : Cascade}
    (h : simulate c frames = .ok (s, ())) : Run c Rng.least Any frames s () := by
  obtain ⟨s₀, g₁, hb, hs⟩ := run_bind_ok.mp h
  exact ⟨(), s₀, g₁, hb, Steps.iff_processFrames.mpr hs⟩

def loudBeat : Activation := ⟨9 / 10, 0, by norm_num, silence.downbeat_nonneg⟩

def clearBeat : Activation := ⟨6 / 10, 1 / 10, by norm_num, by norm_num⟩

def loudDownbeat : Activation := ⟨1 / 10, 9 / 10, by norm_num, by norm_num⟩

def faintDownbeat : Activation := ⟨1 / 10, 6 / 10, by norm_num, by norm_num⟩

end Small

end BeatNet
