import BeatNet.Library.Observers
import BeatNet.Library.RunLengths
import BeatNet.Pointers
import BeatNet.Validity

namespace BeatNet

open Numpy Library.Effects Library.Observers Library.RunLengths

inductive Colour
  | yellow | green
  deriving DecidableEq

structure BeatPlot where
  offsets : List (ℚ × ℕ)
  alpha : ℚ
  colour : Colour
  swarm : Option ℚ
  deriving DecidableEq

structure DownbeatPlot where
  offsets : List (ℚ × ℕ)
  alpha : ℚ
  swarm : ℚ
  deriving DecidableEq

structure Display where
  beatsActivationShow : List ℚ
  downbeatsActivationShow : List ℚ
  beatParticles : Option BeatPlot
  downbeatParticles : Option DownbeatPlot
  deriving DecidableEq

/-- Matplotlib, which is handed new data to show and may raise. -/
structure Matplotlib where
  showRecording : List Activation → Except PyError Unit
  showActivations : List ℚ → List ℚ → Except PyError Unit
  showBeats : BeatPlot → Except PyError Unit
  showDownbeats : DownbeatPlot → Except PyError Unit

structure Matplotlib.Accepts (plt : Matplotlib) : Prop where
  recording : ∀ frames, plt.showRecording frames = .ok ()
  activations : ∀ beats downbeats, plt.showActivations beats downbeats = .ok ()
  beats : ∀ plot, plt.showBeats plot = .ok ()
  downbeats : ∀ plot, plt.showDownbeats plot = .ok ()

/-- What is to be plotted. The modes `stream` and `realtime` update the plots of activations. -/
structure Plots where
  activations : Bool
  beatParticles : Bool
  downbeatParticles : Bool
  live : Bool
  plt : Matplotlib

namespace Numpy

/-- `np.r_[True, l[:-1] != l[1:], True]` -/
def changes (l : List ℕ) : List Bool :=
  true :: List.zipWith (fun x y ↦ decide (x ≠ y)) l.dropLast l.tail ++ [true]

def flatnonzeroFrom (k : ℕ) (m : List Bool) : List ℕ := ((m.zipIdx k).filter (·.1)).map (·.2)

def flatnonzero (m : List Bool) : List ℕ := flatnonzeroFrom 0 m

def diff (l : List ℕ) : List ℕ := List.zipWith (fun x y ↦ y - x) l l.tail

def compress (l : List ℕ) (m : List Bool) : Except PyError (List ℕ) :=
  if m.length = l.length then .ok (((l.zip m).filter (·.2)).map (·.1)) else .error .indexError

def columns (l l' : List ℕ) : Except PyError (List (ℕ × ℕ)) :=
  if l.length = l'.length then .ok (l.zip l') else .error .valueError

def itemInt {α : Type} (l : List α) (i : ℤ) : Except PyError α :=
  if 0 ≤ i then item l i.toNat
  else if -l.length ≤ i then item l (l.length + i).toNat else .error .indexError

def roll {α : Type} (l : List α) : List α := l.getLast?.toList ++ l.dropLast

def medianOf (l : List ℚ) : Option ℚ :=
  let s := l.insertionSort (· ≤ ·)
  let n := s.length
  if n = 0 then none
  else if n % 2 = 1 then some (s.getD (n / 2) 0)
  else some ((s.getD (n / 2 - 1) 0 + s.getD (n / 2) 0) / 2)

end Numpy

/-- The states that are occupied, with the number of particles there. -/
def part (particles : List ℕ) : Except PyError (List (ℕ × ℕ)) := do
  let m := changes particles
  let counts := diff (flatnonzero m)
  let unq ← compress particles m.dropLast
  columns unq counts

def BarStateSpace.longest (st : BarStateSpace) : ℕ := st.stateIntervals.foldr max 0

def offsets (st : BarStateSpace) (part : List (ℕ × ℕ)) : Except PyError (List (ℚ × ℕ)) := do
  let positions ← take st.statePositions (part.map (·.1))
  let intervals ← take st.stateIntervals (part.map (·.1))
  return positions.zip (intervals.map (st.longest - ·))

section Plotting

variable {G : Type} (c : Config) (rng : Rng G) (plots : Plots)

def refresh (shown : List ℚ) (x : ℚ) : List ℚ :=
  let rolled := roll shown
  rolled.set (rolled.length - 1) x

def activationsPlot (both : List Activation) (d : Display) : Except PyError Display := do
  let first ← item both 0
  let beats := refresh d.beatsActivationShow first.beat
  let downbeats := refresh d.downbeatsActivationShow first.downbeat
  plots.plt.showActivations beats downbeats
  return { d with beatsActivationShow := beats, downbeatsActivationShow := downbeats }

def updateActivations (both : List Activation) (d : Display) : Except PyError Display :=
  if plots.activations && plots.live then activationsPlot plots both d else return d

def currentActivations (both : List Activation) (s : Cascade) : Except PyError Activation :=
  if plots.live then item both 0 else itemInt both s.counter

def beatParticlesPlot (both : List Activation) (s : Cascade) : Except PyError BeatPlot := do
  let positions ← take c.st.statePositions s.particles
  let part ← part s.particles
  let current ← currentActivations plots both s
  let offsets ← offsets c.st part
  let plot : BeatPlot := {
    offsets := offsets
    alpha := c.gated current
    colour := if current.downbeat < current.beat then .yellow else .green
    swarm := medianOf positions }
  plots.plt.showBeats plot
  return plot

def downbeatParticlesPlot (both : List Activation) (downMax : ℕ) (s : Cascade) :
    Except PyError DownbeatPlot := do
  let part1 ← part s.downParticles
  let position ← item c.st2.statePositions downMax
  let current ← currentActivations plots both s
  let offsets ← offsets c.st2 part1
  let plot : DownbeatPlot := { offsets := offsets, alpha := current.downbeat, swarm := position }
  plots.plt.showDownbeats plot
  return plot

def plottedDownbeatStage (both : List Activation) (a : Activation) (s : Cascade) (d : Display) :
    Draw G (Cascade × Display) := do
  let moved ← downMotion c rng s.downParticles
  let corrected ← downCorrection c rng a moved
  let dm ← downMax corrected
  let t := report c a dm { s with downParticles := corrected }
  if plots.downbeatParticles then do
    let plot ← downbeatParticlesPlot c plots both dm t
    return (t, { d with downbeatParticles := some plot })
  else return (t, d)

def plottedGatedStage (both : List Activation) (a : Activation) (due : Bool) (s : Cascade)
    (d : Display) : Draw G (Cascade × Display) :=
  if due then plottedDownbeatStage c rng plots both a s d else pure (s, d)

def plottedInference (both : List Activation) (a : Activation) (s : Cascade) (d : Display) :
    Draw G (Cascade × Display) := do
  let due ← beatGate c s.tick
  let t ← plottedGatedStage c rng plots both a due s.tick d
  let particles ← beatStage c rng a t.1.particles
  let u := { t.1 with particles := particles }
  if plots.beatParticles then do
    let plot ← beatParticlesPlot c plots both u
    return (u, { t.2 with beatParticles := some plot })
  else return (u, t.2)

def plottedFrame (both : List Activation) (r : Cascade × Display) (a : Activation) :
    Draw G (Cascade × Display) := do
  let d ← updateActivations plots both r.2
  plottedInference c rng plots both a r.1 d

/-- `activations_plot` in the other modes draws the whole recording. -/
def plotRecording (both : List Activation) : Except PyError Unit :=
  if plots.activations && !plots.live then plots.plt.showRecording both else return ()

def plottedProcess (activations : Activations) (r : Cascade × Display) :
    Draw G ((Cascade × List Row) × Display) := do
  let frames ← framesOf c activations
  plotRecording plots frames
  let t ← frames.foldlM (plottedFrame c rng plots frames) r
  return ((t.1, t.1.beats), t.2)

def plottedCalls (calls : List Activation) (r : Cascade × Display) :
    Draw G (Cascade × Display) :=
  calls.foldlM (fun r a ↦ do
    let t ← plottedProcess c rng plots (.row a) r
    return (t.1.1, t.2)) r

end Plotting

section Parts

def marks (x : ℕ) (l : List ℕ) : List Bool :=
  List.zipWith (fun x y ↦ decide (x ≠ y)) (x :: l).dropLast l

def select (l : List ℕ) (m : List Bool) : List ℕ := ((l.zip m).filter (·.2)).map (·.1)

def lengths (start k : ℕ) (m : List Bool) : List ℕ :=
  diff (start :: flatnonzeroFrom k (m ++ [true]))

theorem marks_cons (x y : ℕ) (l : List ℕ) :
    marks x (y :: l) = decide (x ≠ y) :: marks y l := rfl

theorem length_marks (x : ℕ) (l : List ℕ) : (marks x l).length = l.length := by
  rw [marks, List.length_zipWith, List.length_dropLast, List.length_cons, Nat.add_sub_cancel,
    min_self]

theorem runs_eq_zip {start k : ℕ} (hk : start < k) (x : ℕ) (l : List ℕ) :
    ∃ n rest, runs (x :: l) = (x, n + 1) :: rest ∧
      (x :: select l (marks x l)).zip (lengths start k (marks x l)) = (x, n + (k - start)) :: rest ∧
      (x :: select l (marks x l)).length = (lengths start k (marks x l)).length := by
  induction l generalizing start k x with
  | nil => exact ⟨0, [], rfl, by rw [Nat.zero_add]; rfl, rfl⟩
  | cons y l ih =>
    rw [marks_cons, runs_cons]
    by_cases hxy : x = y
    · -- the run goes on
      subst hxy
      obtain ⟨n, rest, hruns, hzip, hlen⟩ := ih (hk.trans (Nat.lt_succ_self k)) x
      rw [decide_eq_false (by simp : ¬ x ≠ x)]
      refine ⟨n + 1, rest, by rw [hruns, push, if_pos rfl], ?_, hlen⟩
      have hsum : n + (k + 1 - start) = n + 1 + (k - start) := by omega
      rw [← hsum]
      exact hzip
    · -- a run of one element, and the next one begins at `k`
      obtain ⟨n, rest, hruns, hzip, hlen⟩ := ih (Nat.lt_succ_self k) y
      rw [decide_eq_true hxy]
      refine ⟨0, (y, n + 1) :: rest, by rw [hruns, push, if_neg hxy], ?_, ?_⟩
      · have hone : k.succ - k = 1 := Nat.add_sub_cancel_left k 1
        rw [hone] at hzip
        rw [Nat.zero_add]
        exact congrArg (List.cons (x, k - start)) hzip
      · exact congrArg Nat.succ hlen

theorem part_eq (x : ℕ) (l : List ℕ) : part (x :: l) = .ok (runs (x :: l)) := by
  obtain ⟨n, rest, hruns, hzip, hlen⟩ := runs_eq_zip Nat.zero_lt_one x l
  have hmask : (changes (x :: l)).dropLast = true :: marks x l := List.dropLast_concat
  have hcompress : compress (x :: l) (true :: marks x l) = .ok (x :: select l (marks x l)) := by
    rw [compress, if_pos (by rw [List.length_cons, List.length_cons, length_marks])]
    rfl
  have hcounts : diff (flatnonzero (changes (x :: l))) = lengths 0 1 (marks x l) := rfl
  rw [part, hmask, hcounts, hcompress]
  change columns _ _ = _
  rw [columns, if_pos hlen, hzip, hruns]

/-- A population of particles and what is found to be occupied stand for each other. When the
particles are in order, every state that is occupied is found once, with all its particles. -/
theorem part_round_trip {particles : List ℕ} (hne : particles ≠ []) :
    ∃ p, part particles = .ok p ∧ Reduced p ∧ expand p = particles ∧
      (∀ q, Reduced q → expand q = particles → q = p) ∧
      (particles.Pairwise (· ≤ ·) →
        (p.map (·.1)).Pairwise (· < ·) ∧ ∀ e ∈ p, e.2 = particles.count e.1) := by
  obtain ⟨x, l, rfl⟩ := List.exists_cons_of_ne_nil hne
  refine ⟨runs (x :: l), part_eq x l, reduced_runs _, expand_runs _, fun q hq hexpand ↦ ?_,
    fun hsorted ↦ ?_⟩
  · rw [← hexpand, runs_expand hq]
  · exact ⟨pairwise_runs hsorted, fun e he ↦ count_of_mem_runs hsorted he⟩

theorem part_round_trip_unordered :
    ∃ p, part [3, 3, 5, 3] = .ok p ∧ Reduced p ∧ expand p = [3, 3, 5, 3] := by
  obtain ⟨p, hp, hreduced, hexpand, _⟩ := part_round_trip (List.cons_ne_nil 3 [3, 5, 3])
  exact ⟨p, hp, hreduced, hexpand⟩

end Parts

section Undisturbed

variable {G : Type} {c : Config} {rng : Rng G} {plots : Plots} {both : List Activation}
  {s : Cascade} {d : Display} {a : Activation} {st : BarStateSpace} {particles : List ℕ}

theorem exists_part (hne : particles ≠ []) : part particles = .ok (runs particles) := by
  obtain ⟨x, l, rfl⟩ := List.exists_cons_of_ne_nil hne
  exact part_eq x l

theorem exists_offsets (h : ∀ p ∈ particles, p < st.numStates) :
    ∃ o, offsets st (runs particles) = .ok o := by
  have hlt : ∀ i ∈ (runs particles).map (·.1), i < st.numStates := by
    intro i hi
    obtain ⟨e, he, rfl⟩ := List.mem_map.mp hi
    exact h e.1 (mem_of_mem_runs he)
  obtain ⟨positions, hpositions⟩ := take_of_lt (l := st.statePositions) fun i hi ↦ by
    rw [length_statePositions]
    exact hlt i hi
  obtain ⟨intervals, hintervals⟩ := take_of_lt (l := st.stateIntervals) fun i hi ↦ by
    rw [BarStateSpace.length_stateIntervals]
    exact hlt i hi
  exact ⟨_, except_bind_ok.mpr ⟨positions, hpositions, except_bind_ok.mpr ⟨intervals, hintervals,
    rfl⟩⟩⟩

theorem lt_of_itemInt {α : Type} {l : List α} {i : ℤ} {x : α} (hi : 0 ≤ i)
    (h : itemInt l i = .ok x) : i < l.length := by
  rw [itemInt, if_pos hi, item_ok] at h
  have hlt := (List.getElem?_eq_some_iff.mp h).1
  omega

def InView (plots : Plots) (both : List Activation) (s : Cascade) : Prop :=
  if plots.live then both ≠ [] else 0 ≤ s.counter ∧ s.counter < both.length

theorem exists_currentActivations (h : InView plots both s) :
    ∃ a, currentActivations plots both s = .ok a := by
  rw [InView] at h
  rw [currentActivations]
  split_ifs at h ⊢
  · exact ⟨_, item_of_lt (List.length_pos_iff.mpr h)⟩
  · rw [itemInt, if_pos h.1]
    exact ⟨_, item_of_lt (by omega)⟩

theorem exists_beatParticlesPlot (hplt : plots.plt.Accepts) (hview : InView plots both s)
    (hne : s.particles ≠ []) (h : ∀ p ∈ s.particles, p < c.st.numStates) :
    ∃ plot, beatParticlesPlot c plots both s = .ok plot := by
  obtain ⟨positions, hpositions⟩ := take_of_lt (l := c.st.statePositions) fun i hi ↦ by
    rw [length_statePositions]
    exact h i hi
  obtain ⟨current, hcurrent⟩ := exists_currentActivations hview
  obtain ⟨o, ho⟩ := exists_offsets h
  exact ⟨_, except_bind_ok.mpr ⟨positions, hpositions, except_bind_ok.mpr ⟨_, exists_part hne,
    except_bind_ok.mpr ⟨current, hcurrent, except_bind_ok.mpr ⟨o, ho, except_bind_ok.mpr
      ⟨(), hplt.beats _, rfl⟩⟩⟩⟩⟩⟩

theorem exists_downbeatParticlesPlot {dm : ℕ} (hplt : plots.plt.Accepts)
    (hview : InView plots both s) (hdm : dm ∈ s.downParticles) (h : ∀ p ∈ s.downParticles, p < c.st2.numStates) :
    ∃ plot, downbeatParticlesPlot c plots both dm s = .ok plot := by
  have hlt : dm < c.st2.statePositions.length := by
    rw [length_statePositions]
    exact h dm hdm
  obtain ⟨current, hcurrent⟩ := exists_currentActivations hview
  obtain ⟨o, ho⟩ := exists_offsets h
  exact ⟨_, except_bind_ok.mpr ⟨_, exists_part (List.ne_nil_of_mem hdm),
    except_bind_ok.mpr ⟨_, item_of_lt hlt, except_bind_ok.mpr ⟨current, hcurrent,
      except_bind_ok.mpr ⟨o, ho, except_bind_ok.mpr ⟨(), hplt.downbeats _, rfl⟩⟩⟩⟩⟩⟩

theorem meets_of_guarded {β : Type} {x : Draw G β} {P : β → Prop}
    (h : Meets x P (Guarded False)) : Meets x P fun _ ↦ True :=
  h.mono (fun _ hp ↦ hp) fun _ _ ↦ trivial

theorem shadows_plottedDownbeatStage (hplt : plots.plt.Accepts) (hview : InView plots both s)
    (h : ∀ p ∈ s.downParticles, p < c.st2.numStates) :
    Shadows (plottedDownbeatStage c rng plots both a s d) (downbeatStage c rng a s) := by
  refine Shadows.bind_same (meets_of_guarded (meets_downMotion s.downParticles))
    fun moved hmoved ↦ ?_
  refine Shadows.bind_same (meets_of_guarded (meets_downCorrection fun hf ↦ hf.elim))
    fun corrected hcorrected ↦ ?_
  have hvalid : ∀ p ∈ corrected, p < c.st2.numStates := by
    intro p hp
    rcases hcorrected.2 p hp with hm | hfirst
    · exact hmoved.2 h p hm
    · exact BarStateSpace.firsts_lt hfirst
  refine Shadows.bind_same (P := fun dm ↦ dm ∈ corrected)
    (Meets.lift (fun dm hdm ↦ argmax_bincount_mem hdm) fun _ _ ↦ trivial) fun dm hdm ↦ ?_
  split_ifs
  · obtain ⟨plot, hplot⟩ : ∃ plot, downbeatParticlesPlot c plots both dm
        (report c a dm { s with downParticles := corrected }) = .ok plot :=
      exists_downbeatParticlesPlot hplt hview hdm hvalid
    exact Shadows.lift_bind hplot (Shadows.pure _ _)
  · exact Shadows.pure _ _

theorem shadows_plottedGatedStage {due : Bool} (hplt : plots.plt.Accepts)
    (hview : InView plots both s) (h : ∀ p ∈ s.downParticles, p < c.st2.numStates) :
    Shadows (plottedGatedStage c rng plots both a due s d) (gatedStage c rng a due s) := by
  cases due with
  | true => exact shadows_plottedDownbeatStage hplt hview h
  | false => exact Shadows.pure s d

theorem gathering_ne_nil {m : ℕ} (h : gathering particles = .ok m) : particles ≠ [] := by
  rintro rfl
  cases h

theorem meets_gatedStage_kept {due : Bool} :
    Meets (gatedStage c rng a due s) (fun t ↦ t.particles = s.particles ∧ t.counter = s.counter)
      fun _ ↦ True := by
  cases due with
  | true =>
    refine (meets_of_guarded (meets_downbeatStage fun hf ↦ hf.elim)).mono (fun t ht ↦ ?_)
      fun _ he ↦ he
    obtain ⟨dm, hdm⟩ := ht.report
    rw [hdm]
    exact ⟨rfl, rfl⟩
  | false => exact Meets.pure ⟨rfl, rfl⟩

theorem meets_beatStage_kept (hne : particles ≠ []) (h : ∀ p ∈ particles, p < c.st.numStates) :
    Meets (beatStage c rng a particles)
      (fun out ↦ out ≠ [] ∧ ∀ p ∈ out, p < c.st.numStates) fun _ ↦ True := by
  refine (meets_of_guarded (meets_beatMotion particles)).bind fun moved hmoved ↦ ?_
  refine (meets_of_guarded (meets_beatCorrection fun hf ↦ hf.elim)).mono (fun out hout ↦ ?_)
    fun _ he ↦ he
  have hpos := List.length_pos_iff.mpr hne
  have hle := hout.1.length_le
  have hlen := hmoved.1
  refine ⟨List.length_pos_iff.mp (by omega), fun p hp ↦ ?_⟩
  rcases hout.1.mem p hp with hm | hfirst
  · exact hmoved.2 h p hm
  · exact BarStateSpace.firsts_lt hfirst

theorem shadows_plottedInference (hplt : plots.plt.Accepts) (hv : Valid c s)
    (hview : InView plots both s.tick) :
    Shadows (plottedInference c rng plots both a s d) (processFrame c rng a s) := by
  refine Shadows.bind_same (P := fun _ ↦ s.particles ≠ [])
    (Meets.lift (fun due hdue ↦ ?_) fun _ _ ↦ trivial) fun due hne ↦ ?_
  · obtain ⟨m, hm, _⟩ := except_bind_ok.mp hdue
    exact gathering_ne_nil hm
  refine (shadows_plottedGatedStage hplt hview hv.downParticles).bind meets_gatedStage_kept
    fun t d' ht ↦ ?_
  obtain ⟨hparticles, hcounter⟩ := ht
  have hstage : Meets (beatStage c rng a t.particles)
      (fun out ↦ out ≠ [] ∧ ∀ p ∈ out, p < c.st.numStates) fun _ ↦ True :=
    meets_beatStage_kept (hparticles ▸ hne) (hparticles ▸ hv.particles)
  refine Shadows.bind_same hstage fun particles hkept ↦ ?_
  split_ifs
  · have hview' : InView plots both { t with particles := particles } := by
      rw [InView, hcounter]
      exact hview
    obtain ⟨plot, hplot⟩ := exists_beatParticlesPlot hplt hview' hkept.1 hkept.2
    exact Shadows.lift_bind hplot (Shadows.pure _ _)
  · exact Shadows.pure _ _

theorem shadows_plottedFrame (hplt : plots.plt.Accepts) (hv : Valid c s) (hboth : both ≠ [])
    (hview : InView plots both s.tick) :
    Shadows (plottedFrame c rng plots both (s, d) a) (processFrame c rng a s) := by
  have hshow : ∃ d', updateActivations plots both d = .ok d' := by
    rw [updateActivations]
    split_ifs
    · exact ⟨_, except_bind_ok.mpr ⟨_, item_of_lt (List.length_pos_iff.mpr hboth),
        except_bind_ok.mpr ⟨(), hplt.activations _ _, rfl⟩⟩⟩
    · exact ⟨d, rfl⟩
  obtain ⟨d', hd'⟩ := hshow
  exact Shadows.lift_bind hd' (shadows_plottedInference hplt hv hview)

def Ahead (plots : Plots) (both rest : List Activation) (s : Cascade) : Prop :=
  rest.length ≤ both.length ∧
    (plots.live = false → -1 ≤ s.counter ∧ s.counter + rest.length < both.length)

theorem Ahead.inView {rest : List Activation} (h : Ahead plots both (a :: rest) s) :
    both ≠ [] ∧ InView plots both s.tick := by
  obtain ⟨hle, hcounter⟩ := h
  rw [List.length_cons] at hle hcounter
  have hne : both ≠ [] := List.length_pos_iff.mp (by omega)
  refine ⟨hne, ?_⟩
  have htick : s.tick.counter = s.counter + 1 := rfl
  rw [InView, htick]
  split_ifs with hlive
  · exact hne
  · obtain ⟨hfirst, hlast⟩ := hcounter (by simpa using hlive)
    push_cast at hlast
    exact ⟨by omega, by omega⟩

theorem Ahead.step {rest : List Activation} {s' : Cascade} (h : Ahead plots both (a :: rest) s)
    (hf : FrameStep c a s s') : Ahead plots both rest s' := by
  have hnext := hf.counter
  obtain ⟨hle, hcounter⟩ := h
  rw [List.length_cons] at hle hcounter
  refine ⟨by omega, fun hlive ↦ ?_⟩
  obtain ⟨hfirst, hlast⟩ := hcounter hlive
  push_cast at hlast
  exact ⟨by omega, by omega⟩

theorem shadows_plottedFrames (hplt : plots.plt.Accepts) (hst2 : c.st2.intervals ≠ [])
    (hv : Valid c s) {rest : List Activation} (h : Ahead plots both rest s) :
    Shadows (rest.foldlM (plottedFrame c rng plots both) (s, d)) (processFrames c rng rest s) := by
  refine Shadows.foldlM (I := fun rest s ↦ Valid c s ∧ Ahead plots both rest s)
    (fun a rest s hI ↦ ?_) (fun a rest s d hI ↦ ?_) ⟨hv, h⟩
  · exact (meets_of_guarded (meets_processFrame fun hf ↦ hf.elim)).mono
      (fun s' hf ↦ ⟨hI.1.step hst2 hf, hI.2.step hf⟩) fun _ he ↦ he
  · obtain ⟨hne, hview⟩ := hI.2.inView
    exact shadows_plottedFrame hplt hI.1 hne hview

theorem meets_plottedInference (hbeat : plots.beatParticles = true) (hlive : plots.live = false)
    (hcounter : 0 ≤ s.tick.counter) :
    Meets (plottedInference c rng plots both a s d)
      (fun t ↦ t.1.counter = s.counter + 1 ∧ t.1.counter < both.length) fun _ ↦ True := by
  refine Meets.pass fun due ↦ ?_
  have hstage : Meets (plottedGatedStage c rng plots both a due s.tick d)
      (fun t ↦ t.1.counter = s.tick.counter) fun _ ↦ True := by
    cases due with
    | false => exact Meets.pure rfl
    | true =>
      refine Meets.pass fun moved ↦ ?_
      refine Meets.pass fun corrected ↦ ?_
      refine Meets.pass fun dm ↦ ?_
      split_ifs
      · exact Meets.pass fun _ ↦ Meets.pure rfl
      · exact Meets.pure rfl
  refine hstage.bind fun t ht ↦ ?_
  refine Meets.pass fun particles ↦ ?_
  rw [if_pos hbeat]
  refine (Meets.lift (P := fun _ ↦ t.1.counter < both.length) (fun plot hplot ↦ ?_)
    fun _ _ ↦ trivial).bind fun plot hlt ↦ Meets.pure ⟨ht, hlt⟩
  obtain ⟨_, _, hplot⟩ := except_bind_ok.mp hplot
  obtain ⟨_, _, hplot⟩ := except_bind_ok.mp hplot
  obtain ⟨current, hcurrent, _⟩ := except_bind_ok.mp hplot
  have hnow : (0 : ℤ) ≤ t.1.counter := ht ▸ hcounter
  rw [currentActivations, if_neg (by rw [hlive]; exact Bool.false_ne_true)] at hcurrent
  exact lt_of_itemInt hnow hcurrent

theorem meets_plottedFrames (hbeat : plots.beatParticles = true) (hlive : plots.live = false)
    (hcounter : 0 ≤ s.counter) (hne : both ≠ []) :
    Meets (both.foldlM (plottedFrame c rng plots both) (s, d)) (fun _ ↦ False) fun _ ↦ True := by
  -- the last frame is looked for behind the last one
  let I (rest : List Activation) (r : Cascade × Display) : Prop :=
    r.1.counter + rest.length = s.counter + both.length ∧ 0 ≤ r.1.counter ∧
      (rest = [] → r.1.counter < both.length)
  have hfold : Meets (both.foldlM (plottedFrame c rng plots both) (s, d)) (I []) fun _ ↦ True := by
    refine Meets.foldlM_rest (I := I) (fun a rest r _ hI ↦ ?_)
      ⟨rfl, hcounter, fun hnil ↦ absurd hnil hne⟩
    obtain ⟨hsum, hpos, _⟩ := hI
    have htick : r.1.tick.counter = r.1.counter + 1 := rfl
    rw [List.length_cons] at hsum
    push_cast at hsum
    refine Meets.pass fun d' ↦ ?_
    refine (meets_plottedInference hbeat hlive (by omega)).mono
      (fun t ht ↦ ?_) fun _ he ↦ he
    exact ⟨by omega, by omega, fun _ ↦ ht.2⟩
  refine hfold.mono (fun r hr ↦ ?_) fun _ he ↦ he
  obtain ⟨hsum, _, hlast⟩ := hr
  have hlt := hlast rfl
  rw [List.length_nil] at hsum
  omega

theorem meets_plottedFrames_refused (hbeat : plots.beatParticles = true)
    (hrefuse : ∀ plot, ∃ e, plots.plt.showBeats plot = .error e) (hne : both ≠ []) :
    Meets (both.foldlM (plottedFrame c rng plots both) (s, d)) (fun _ ↦ False) fun _ ↦ True := by
  have hinference : ∀ (a : Activation) (s : Cascade) (d : Display),
      Meets (plottedInference c rng plots both a s d) (fun _ ↦ False) fun _ ↦ True := by
    intro a s d
    refine Meets.pass fun due ↦ Meets.pass fun t ↦ Meets.pass fun particles ↦ ?_
    rw [if_pos hbeat]
    refine (Meets.lift (P := fun _ ↦ False) (fun plot hplot ↦ ?_) fun _ _ ↦ trivial).bind
      fun _ hf ↦ hf.elim
    obtain ⟨_, _, hplot⟩ := except_bind_ok.mp hplot
    obtain ⟨_, _, hplot⟩ := except_bind_ok.mp hplot
    obtain ⟨_, _, hplot⟩ := except_bind_ok.mp hplot
    obtain ⟨_, _, hplot⟩ := except_bind_ok.mp hplot
    obtain ⟨_, hshow, _⟩ := except_bind_ok.mp hplot
    obtain ⟨e, he⟩ := hrefuse _
    rw [he] at hshow
    cases hshow
  refine (Meets.foldlM_rest (I := fun rest _ ↦ rest ≠ []) (fun a rest r _ _ ↦ ?_) hne).mono
    (fun _ hnil ↦ hnil rfl) fun _ he ↦ he
  exact Meets.pass fun d' ↦ (hinference a r.1 d').mono (fun _ hf ↦ hf.elim) fun _ he ↦ he

theorem fails_of_frames {activations : Activations}
    (h : ∀ frames, frames ≠ [] → Meets (frames.foldlM (plottedFrame c rng plots frames) (s, d))
      (fun _ ↦ False) fun _ ↦ True)
    (hframes : framesOf c activations ≠ .ok []) (g : G) :
    ∃ e, (plottedProcess c rng plots activations (s, d)).run g = .error e := by
  have hnever : Meets (plottedProcess c rng plots activations (s, d)) (fun _ ↦ False)
      fun _ ↦ True := by
    refine Meets.bind (M := fun frames ↦ frames ≠ [])
      (Meets.lift (fun frames hok ↦ ?_) fun _ _ ↦ trivial) fun frames hne ↦ ?_
    · rintro rfl
      exact hframes hok
    · exact Meets.pass fun _ ↦ (h frames hne).bind fun _ hf ↦ hf.elim
  obtain ⟨e, _, he⟩ := hnever.fails g
  exact ⟨e, he⟩

/-- Plots that Matplotlib accepts do not change what is inferred, as long as the frames come in by
one call or in a mode that shows the newest one. Otherwise the plot of the beat particles looks for
a frame that the call has not been given. -/
theorem plotted_process {before : List Activation} {g : G} (hst2 : c.st2.intervals ≠ [])
    (h : Run c rng Any before s g) (d : Display) (activations : Activations) :
    (plots.plt.Accepts → plots.live = true ∨ before = [] → ∀ g',
      ((plottedProcess c rng plots activations (s, d)).run g').map (fun r ↦ (r.1.1, r.2)) =
        (process c rng activations s).run g') ∧
      (plots.live = false → plots.beatParticles = true → before ≠ [] →
        framesOf c activations ≠ .ok [] → ∀ g',
          ∃ e, (plottedProcess c rng plots activations (s, d)).run g' = .error e) ∧
      ((∀ plot, ∃ e, plots.plt.showBeats plot = .error e) → plots.beatParticles = true →
        framesOf c activations ≠ .ok [] → ∀ g',
          ∃ e, (plottedProcess c rng plots activations (s, d)).run g' = .error e) := by
  have hcounter := h.counter
  refine ⟨fun hplt hplots ↦ ?_, fun hlive hbeat hbefore hframes g' ↦ ?_,
    fun hrefuse hbeat hframes g' ↦
      fails_of_frames (fun _ hne ↦ meets_plottedFrames_refused hbeat hrefuse hne) hframes g'⟩
  · suffices hshadows : Shadows (plottedProcess c rng plots activations (s, d))
        (process c rng activations s) from hshadows
    refine Shadows.bind_same (P := fun _ ↦ True) (Meets.of_forall fun _ ↦ trivial)
      fun frames _ ↦ ?_
    have hahead : Ahead plots frames frames s := by
      refine ⟨le_rfl, fun hlive ↦ ?_⟩
      obtain htrue | rfl := hplots
      · rw [htrue] at hlive
        cases hlive
      · rw [hcounter]
        exact ⟨le_rfl, by simp⟩
    have hrecording : plotRecording plots frames = .ok () := by
      rw [plotRecording]
      split_ifs
      · exact hplt.recording frames
      · rfl
    exact Shadows.lift_bind hrecording ((shadows_plottedFrames hplt hst2 (h.valid hst2) hahead).bind
      (Meets.of_forall (P := fun _ ↦ True) fun _ ↦ trivial) fun t d' _ ↦ Shadows.pure _ d')
  · have hpos : 0 < before.length := List.length_pos_iff.mpr hbefore
    exact fails_of_frames (fun _ hne ↦ meets_plottedFrames hbeat hlive (by omega) hne) hframes g'

def silentPlt : Matplotlib := ⟨fun _ ↦ .ok (), fun _ _ ↦ .ok (), fun _ ↦ .ok (), fun _ ↦ .ok ()⟩

def scalarPlt : Matplotlib := { silentPlt with showBeats := fun _ ↦ .error .runtimeError }

theorem plotted_process_small :
    ∃ s, Run (small 0 (4 / 10)) Rng.least Any [silence, silence, loudDownbeat] s () ∧ ∀ d,
      ((plottedProcess (small 0 (4 / 10)) Rng.least ⟨true, true, true, true, silentPlt⟩
        (.row clearBeat) (s, d)).run ()).map (fun r ↦ (r.1.1, r.2)) =
          (process (small 0 (4 / 10)) Rng.least (.row clearBeat) s).run () ∧
      (∃ e, (plottedProcess (small 0 (4 / 10)) Rng.least ⟨true, true, true, false, silentPlt⟩
        (.row clearBeat) (s, d)).run () = .error e) ∧
      ∃ e, (plottedProcess (small 0 (4 / 10)) Rng.least ⟨true, true, true, true, scalarPlt⟩
        (.row clearBeat) (s, d)).run () = .error e := by
  have hrun : Run (small 0 (4 / 10)) Rng.least Any [silence, silence, loudDownbeat]
      ⟨2, [⟨1 / 25, 1⟩], [0, 0], [0, 2]⟩ () := run_of_simulate (by decide +kernel)
  have hframes : framesOf (small 0 (4 / 10)) (.row clearBeat) ≠ .ok [] := by decide +kernel
  have haccepts : silentPlt.Accepts := ⟨fun _ ↦ rfl, fun _ _ ↦ rfl, fun _ ↦ rfl, fun _ ↦ rfl⟩
  refine ⟨_, hrun, fun d ↦ ⟨?_, ?_, ?_⟩⟩
  · exact (plotted_process (by decide) hrun d (.row clearBeat)).1 haccepts (.inl rfl) ()
  · exact (plotted_process (by decide) hrun d (.row clearBeat)).2.1 rfl rfl (by decide) hframes ()
  · exact (plotted_process (by decide) hrun d (.row clearBeat)).2.2 (fun _ ↦ ⟨_, rfl⟩) rfl
      hframes ()

end Undisturbed

section Shown

variable {G : Type} {c : Config} {rng : Rng G} {plots : Plots} {both : List Activation}
  {s : Cascade} {d : Display} {a : Activation}

theorem refresh_concat (front : List ℚ) (x y : ℚ) :
    refresh (front ++ [x]) y = (x :: front).take front.length ++ [y] := by
  have hroll : roll (front ++ [x]) = x :: front := by
    rw [roll, List.getLast?_concat, List.dropLast_concat]
    rfl
  rw [refresh, hroll, List.length_cons, Nat.add_sub_cancel, List.set_eq_take_append_cons_drop,
    if_pos (by rw [List.length_cons]; omega), List.drop_eq_nil_of_le (by rw [List.length_cons])]

/-- The newest value stands at the end, the ones before it go back in time from the beginning. -/
def history (m : ℕ) (earlier : List ℚ) (newest : ℚ) : List ℚ :=
  (earlier.reverse ++ List.replicate m 0).take m ++ [newest]

theorem refresh_history (m : ℕ) (earlier : List ℚ) (x y : ℚ) :
    refresh (history m earlier x) y = history m (earlier ++ [x]) y := by
  have hlen : ((earlier.reverse ++ List.replicate m (0 : ℚ)).take m).length = m := by
    rw [List.length_take, List.length_append, List.length_replicate]
    omega
  rw [history, refresh_concat, hlen, history, List.reverse_append]
  congr 1
  cases m with
  | zero => rfl
  | succ m =>
    change _ = (x :: (earlier.reverse ++ List.replicate (m + 1) 0)).take (m + 1)
    rw [List.take_succ_cons, List.take_succ_cons, List.take_take, Nat.min_eq_left (Nat.le_succ m)]

def Displays (beats downbeats : List ℚ) (d : Display) : Prop :=
  d.beatsActivationShow = beats ∧ d.downbeatsActivationShow = downbeats

theorem meets_plottedInference_displays {beats downbeats : List ℚ}
    (h : Displays beats downbeats d) :
    Meets (plottedInference c rng plots both a s d) (fun t ↦ Displays beats downbeats t.2)
      fun _ ↦ True := by
  refine Meets.pass fun due ↦ ?_
  have hstage : Meets (plottedGatedStage c rng plots both a due s.tick d)
      (fun t ↦ Displays beats downbeats t.2) fun _ ↦ True := by
    cases due with
    | false => exact Meets.pure h
    | true =>
      refine Meets.pass fun moved ↦ Meets.pass fun corrected ↦ Meets.pass fun dm ↦ ?_
      split_ifs
      · exact Meets.pass fun _ ↦ Meets.pure h
      · exact Meets.pure h
  refine hstage.bind fun t ht ↦ Meets.pass fun particles ↦ ?_
  split_ifs
  · exact Meets.pass fun _ ↦ Meets.pure ht
  · exact Meets.pure ht

theorem meets_plottedProcess_displays (hplots : plots.activations = true)
    (hlive : plots.live = true) :
    Meets (plottedProcess c rng plots (.row a) (s, d))
      (fun t ↦ Displays (refresh d.beatsActivationShow a.beat)
        (refresh d.downbeatsActivationShow a.downbeat) t.2) fun _ ↦ True := by
  have hframes : Meets (liftM (framesOf c (.row a)) : Draw G (List Activation)) (· = [a])
      fun _ ↦ True := by
    refine Meets.lift (fun frames hok ↦ ?_) fun _ _ ↦ trivial
    rw [framesOf] at hok
    split_ifs at hok
    exact (Except.ok.inj hok).symm
  refine hframes.bind fun frames hf ↦ ?_
  subst hf
  have hupdate : Meets (liftM (updateActivations plots [a] d) : Draw G Display)
      (Displays (refresh d.beatsActivationShow a.beat)
        (refresh d.downbeatsActivationShow a.downbeat)) fun _ ↦ True := by
    refine Meets.lift (fun d' hok ↦ ?_) fun _ _ ↦ trivial
    rw [updateActivations, hplots, hlive] at hok
    obtain ⟨first, hfirst, hok⟩ := except_bind_ok.mp hok
    obtain ⟨_, _, hok⟩ := except_bind_ok.mp hok
    cases hfirst
    cases hok
    exact ⟨rfl, rfl⟩
  refine Meets.pass fun _ ↦ ?_
  rw [List.foldlM_cons]
  refine Meets.bind (M := fun t : Cascade × Display ↦
    Displays (refresh d.beatsActivationShow a.beat)
      (refresh d.downbeatsActivationShow a.downbeat) t.2) ?_ fun t ht ↦ Meets.pure ht
  exact (hupdate.bind fun d' hd' ↦ meets_plottedInference_displays hd').bind
    fun t ht ↦ Meets.pure ht

theorem refresh_zeros (m : ℕ) (x : ℚ) : refresh (List.replicate (m + 1) 0) x = history m [] x := by
  rw [List.replicate_succ', refresh_concat, List.length_replicate, ← List.replicate_succ,
    List.take_replicate, history, List.reverse_nil, List.nil_append, List.take_replicate,
    min_self, Nat.min_eq_left (Nat.le_succ m)]

/-- The display of the activations over a session, when nothing was on display before it. -/
theorem activation_display {earlier : List Activation} {newest : Activation} {m : ℕ}
    {t : Cascade × Display} {g g' : G} (hplots : plots.activations = true)
    (hlive : plots.live = true)
    (hd : Displays (List.replicate (m + 1) 0) (List.replicate (m + 1) 0) d)
    (h : (plottedCalls c rng plots (earlier ++ [newest]) (s, d)).run g = .ok (t, g')) :
    Displays (history m (earlier.map (·.beat)) newest.beat)
      (history m (earlier.map (·.downbeat)) newest.downbeat) t.2 := by
  induction earlier using List.reverseRecOn generalizing newest t g' with
  | nil =>
    obtain ⟨r, k, hcall, hrest⟩ := run_bind_ok.mp h
    obtain ⟨rfl, _⟩ := run_pure_ok.mp hrest
    obtain ⟨u, k', hprocess, hpure⟩ := run_bind_ok.mp hcall
    obtain ⟨rfl, _⟩ := run_pure_ok.mp hpure
    have hshown := (meets_plottedProcess_displays hplots hlive).ok hprocess
    rw [hd.1, hd.2, refresh_zeros, refresh_zeros] at hshown
    exact hshown
  | append_singleton earlier a ih =>
    rw [plottedCalls, List.foldlM_append] at h
    obtain ⟨r, k, hearlier, hlast⟩ := run_bind_ok.mp h
    have hbefore := ih hearlier
    obtain ⟨r', k', hcall, hrest⟩ := run_bind_ok.mp hlast
    obtain ⟨rfl, _⟩ := run_pure_ok.mp hrest
    obtain ⟨u, k'', hprocess, hpure⟩ := run_bind_ok.mp hcall
    obtain ⟨rfl, _⟩ := run_pure_ok.mp hpure
    have hshown := (meets_plottedProcess_displays hplots hlive).ok hprocess
    rw [hbefore.1, hbefore.2, refresh_history, refresh_history] at hshown
    rw [List.map_append, List.map_append]
    exact hshown

theorem activation_display_small :
    ∃ t, (plottedCalls (small 0 (4 / 10)) Rng.least ⟨true, false, false, true, silentPlt⟩
        ([clearBeat, loudDownbeat] ++ [silence])
        (⟨-1, [], [0], [0]⟩, ⟨[0, 0, 0], [0, 0, 0], none, none⟩)).run () = .ok (t, ()) ∧
      Displays (history 2 [6 / 10, 1 / 10] 0) (history 2 [1 / 10, 9 / 10] 0) t.2 := by
  have hrun : (plottedCalls (small 0 (4 / 10)) Rng.least ⟨true, false, false, true, silentPlt⟩
      ([clearBeat, loudDownbeat] ++ [silence])
      (⟨-1, [], [0], [0]⟩, ⟨[0, 0, 0], [0, 0, 0], none, none⟩)).run () =
        .ok ((⟨2, [], [1, 0], [1]⟩,
          ⟨[1 / 10, 6 / 10, 0], [9 / 10, 1 / 10, 0], none, none⟩), ()) := by
    decide +kernel
  exact ⟨_, hrun, activation_display rfl rfl ⟨rfl, rfl⟩ hrun⟩

end Shown

end BeatNet
