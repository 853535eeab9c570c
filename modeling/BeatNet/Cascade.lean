import BeatNet.ObservationModel
import BeatNet.Resample

namespace BeatNet

open Numpy Library.Effects

/-- What `particle_filter_cascade.__init__` fixes for the life of the object. The last fields are
what floating-point numbers decide: `int(offset / T)`, `int(.07 / T)` and, in the frame of a given
counter, the comparison of the refractory test. Between two frames rounding matters only to
distances that are equal. -/
structure Config where
  st : BarStateSpace
  st2 : BarStateSpace
  tm : BarTransitionModel st
  om : BDObservationModel st
  om2 : BDObservationModel st2
  lambdaD : ℚ
  particleSize : ℕ
  downParticleSize : ℕ
  offset : ℚ
  igThreshold : ℚ
  fps : ℚ
  fps_pos : 0 < fps
  start : ℤ
  reach : ℤ
  later : ℤ → ℚ → ℚ → Bool
  start_nonneg : 0 ≤ offset → 0 ≤ start
  le_of_later : ∀ (k d : ℤ) (n : ℕ),
    later k (4 / 10 * (1 / fps) * n) (d * (1 / fps)) = true → 4 / 10 * (n : ℚ) ≤ d

namespace Config

variable (c : Config)

def T : ℚ := 1 / c.fps

def time (counter : ℤ) : ℚ := c.offset + counter * c.T

def tm2 : List (List ℚ) :=
  let k := c.st2.firsts.length
  (List.range k).map fun i ↦ (List.range k).map fun j ↦
    if i = j then 1 - c.lambdaD else c.lambdaD / (k - 1)

def gated (a : Activation) : ℚ :=
  if max a.beat a.downbeat < c.igThreshold then 3 / 100 else max a.beat a.downbeat

structure Exact : Prop where
  start : c.start = pyInt (c.offset / c.T)
  reach : c.reach = pyInt (7 / 100 / c.T)
  later : ∀ k x y, c.later k x y = decide (x < y)

theorem T_pos : 0 < c.T := one_div_pos.mpr c.fps_pos

end Config

structure Row where
  time : ℚ
  label : ℕ
  deriving DecidableEq

/-- The fields of the cascade that change from frame to frame. The field
`beats` is `path[1:]`: the path starts with one row of zeros. -/
structure Cascade where
  counter : ℤ
  beats : List Row
  particles : List ℕ
  downParticles : List ℕ
  deriving DecidableEq

namespace Cascade

def last (s : Cascade) : Row := s.beats.getLastD ⟨0, 0⟩

def tick (s : Cascade) : Cascade := { s with counter := s.counter + 1 }

end Cascade

section Frame

variable {G : Type} (c : Config) (rng : Rng G)

def gathering (particles : List ℕ) : Except PyError ℕ :=
  match median particles with
  | none => .error .valueError
  | some q => .ok (pyInt q).toNat

def inBeatInterval (gathered interval : ℕ) : Bool :=
  c.st.firsts.any fun b ↦
    decide (c.st.stateIntervals[b]? = some interval ∧
      (gathered : ℤ) - b < c.reach + 1)

/-- The test in front of the downbeat stage: the clutter is within the beat
interval and the last reported beat is far enough away. -/
def beatGate (s : Cascade) : Except PyError Bool := do
  let gathered ← gathering s.particles
  let interval ← item c.st.stateIntervals gathered
  return inBeatInterval c gathered interval &&
    c.later s.counter (4 / 10 * c.T * interval) (c.time s.counter - s.last.time)

def motion (lasts : List ℕ) (jump : ℕ → Draw G ℕ) (particles : List ℕ) : Draw G (List ℕ) :=
  (particles.filter (· ∈ lasts)).foldlM (fun state l ↦ do
    let nn ← jump l
    return state ++ [nn]) ((particles.filter (· ∉ lasts)).map (· + 1))

def downJump (l : ℕ) : Draw G ℕ := do
  let arg ← argwhereFirst c.st2.lasts l
  let p ← item c.tm2 arg
  drawChoice rng (.array c.st2.firsts) (squeeze p)

def beatJump (l : ℕ) : Draw G ℕ :=
  let args := c.tm.rows.filter (·.prev = l)
  drawChoice rng (squeeze (args.map (·.state))) (squeeze (args.map (·.prob)))

def downMotion (downParticles : List ℕ) : Draw G (List ℕ) :=
  motion c.st2.lasts (downJump c rng) downParticles

def beatMotion (particles : List ℕ) : Draw G (List ℕ) :=
  motion c.st.lasts (beatJump c rng) particles

def deleteDrawn (n k : ℕ) (l : List ℕ) : Draw G (List ℕ) := do
  let pos ← drawSubset rng n k
  delete l pos

def downInjection (a : Activation) (downParticles : List ℕ) : List ℕ :=
  if 7 / 10 < a.downbeat then downParticles ++ c.st2.firstStates.flatten else downParticles

def downDeletion (a : Activation) (downParticles : List ℕ) : Draw G (List ℕ) :=
  if 7 / 10 < a.downbeat then
    -- the length of the nested list, which is one
    deleteDrawn rng c.downParticleSize c.st2.firstStates.length downParticles
  else pure downParticles

def downCorrection (a : Activation) (downParticles : List ℕ) : Draw G (List ℕ) := do
  let injected := downInjection c a downParticles
  let obs2 ← downDensities a c.om2
  let weights ← take obs2 injected
  let resampled ← universalResample rng injected weights
  downDeletion c rng a resampled

def downMax (downParticles : List ℕ) : Except PyError ℕ := argmax (bincount downParticles)

/-- Beat versus downbeat: the row to append to the path, if any. -/
def reported (a : Activation) (dm : ℕ) (s : Cascade) : Option Row :=
  -- a downbeat is judged by the raw activation, a beat by the gated one
  if dm ∈ c.st2.firsts ∧ s.last.label ≠ 1 ∧ 4 / 10 < a.downbeat then
    some ⟨c.time s.counter, 1⟩
  else if 4 / 10 < c.gated a then some ⟨c.time s.counter, 2⟩
  else none

def report (a : Activation) (dm : ℕ) (s : Cascade) : Cascade :=
  { s with beats := s.beats ++ (reported c a dm s).toList }

def downbeatStage (a : Activation) (s : Cascade) : Draw G Cascade := do
  let moved ← downMotion c rng s.downParticles
  let corrected ← downCorrection c rng a moved
  let dm ← downMax corrected
  return report c a dm { s with downParticles := corrected }

def beatInjection (x : ℚ) (particles : List ℕ) : Draw G (List ℕ) :=
  if 8 / 10 < x then do
    let start ← drawRandint rng 4
    let new ← take c.st.firsts (arange start c.st.firsts.length 6)
    return particles ++ new
  else pure particles

def beatDeletion (x : ℚ) (particles : List ℕ) : Draw G (List ℕ) :=
  if 8 / 10 < x then deleteDrawn rng c.particleSize c.st.firstStates.length particles
  else pure particles

/-- The array that the deletion returns is not assigned to anything. -/
def beatCorrection (x : ℚ) (particles : List ℕ) : Draw G (List ℕ) :=
  if 1 / 10 < x then do
    let injected ← beatInjection c rng x particles
    let weights ← take (beatDensities x c.om) injected
    let resampled ← universalResample rng injected weights
    let _ ← beatDeletion c rng x resampled
    return resampled
  else pure particles

def beatStage (a : Activation) (particles : List ℕ) : Draw G (List ℕ) := do
  let moved ← beatMotion c rng particles
  beatCorrection c rng (c.gated a) moved

def gatedStage (a : Activation) (due : Bool) (s : Cascade) : Draw G Cascade :=
  if due then downbeatStage c rng a s else pure s

def processFrame (a : Activation) (s : Cascade) : Draw G Cascade := do
  let due ← beatGate c s.tick
  let t ← gatedStage c rng a due s.tick
  let particles ← beatStage c rng a t.particles
  return { t with particles := particles }

def processFrames (frames : List Activation) (s : Cascade) : Draw G Cascade :=
  frames.foldlM (fun s a ↦ processFrame c rng a s) s

/-- The argument of `process`: an array of shape `(n, 2)` or a bare row of shape `(2,)`. -/
inductive Activations
  | rows (frames : List Activation)
  | row (frame : Activation)
  deriving DecidableEq

/-- The frames `process` loops over. The slice by the offset is taken before
the shape is looked at, so it acts on the two entries of a bare row. -/
def framesOf : Activations → Except PyError (List Activation)
  | .rows frames => .ok (sliceFrom c.start frames)
  | .row a =>
    if (sliceFrom c.start [a.beat, a.downbeat]).length = 2 then .ok [a]
    else .error .axisError

def process (activations : Activations) (s : Cascade) : Draw G (Cascade × List Row) := do
  let frames ← framesOf c activations
  let t ← processFrames c rng frames s
  return (t, t.beats)

def build : Draw G Cascade := do
  let particles ← drawIntegers rng (c.st.numStates - 1) c.particleSize
  let downParticles ← drawIntegers rng (c.st2.numStates - 1) c.downParticleSize
  return {
    counter := -1
    beats := []
    particles := particles.insertionSort (· ≤ ·)
    downParticles := downParticles.insertionSort (· ≤ ·) }

end Frame

end BeatNet
