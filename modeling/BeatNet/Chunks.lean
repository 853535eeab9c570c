import BeatNet.Runs
import BeatNet.Library.Cuts

namespace BeatNet

open Numpy Library.Effects Library.Cuts

variable {G : Type} {c : Config} {rng : Rng G} {s s' : Cascade} {g g' : G}

def Activations.frames : Activations → List Activation
  | .rows frames => frames
  | .row frame => [frame]

def Activations.isRows : Activations → Bool
  | .rows _ => true
  | .row _ => false

def Config.skip (c : Config) : ℕ := c.start.toNat

theorem framesOf_ok (h0 : 0 ≤ c.offset) {x : Activations} {chunk : List Activation} :
    framesOf c x = .ok chunk ↔
      (c.skip = 0 ∨ x.isRows = true) ∧ x.frames.drop c.skip = chunk := by
  have hpos := c.start_nonneg h0
  cases x with
  | rows frames => simp [framesOf, sliceFrom, hpos, Config.skip, Activations.isRows,
      Activations.frames]
  | row a =>
    have hlen : (sliceFrom c.start [a.beat, a.downbeat]).length = 2 ↔ c.skip = 0 := by
      rw [sliceFrom, if_pos hpos, List.length_drop]
      simp only [List.length_cons, List.length_nil, Config.skip]
      omega
    simp only [framesOf, hlen, Activations.isRows, Activations.frames]
    by_cases hskip : c.skip = 0 <;> simp [hskip]

theorem forall_framesOf_ok (h0 : 0 ≤ c.offset) {calls : List Activations}
    {chunks : List (List Activation)} :
    List.Forall₂ (fun x chunk ↦ framesOf c x = .ok chunk) calls chunks ↔
      (c.skip = 0 ∨ ∀ x ∈ calls, x.isRows = true) ∧
        (calls.map Activations.frames).map (List.drop c.skip) = chunks := by
  induction calls generalizing chunks with
  | nil =>
    rw [List.forall₂_nil_left_iff, eq_comm]
    simp
  | cons x calls ih =>
    rw [List.forall₂_cons_left_iff]
    apply Iff.intro
    · intro h
      obtain ⟨chunk, rest, hx, hrest, rfl⟩ := h
      obtain ⟨hx, rfl⟩ := (framesOf_ok h0).mp hx
      obtain ⟨hcalls, rfl⟩ := ih.mp hrest
      refine ⟨?_, rfl⟩
      rw [List.forall_mem_cons]
      tauto
    · intro h
      obtain ⟨hall, rfl⟩ := h
      rw [List.forall_mem_cons] at hall
      exact ⟨_, _, (framesOf_ok h0).mpr ⟨by tauto, rfl⟩, ih.mpr ⟨by tauto, rfl⟩, rfl⟩

/-- Cuts that the slice by the offset cannot be seen in. -/
def Seamless (c : Config) (calls : List Activations) : Prop :=
  c.skip = 0 ∨ ((∀ x ∈ calls, x.isRows = true) ∧
    ((calls.flatMap Activations.frames).length ≤ c.skip ∨
      (calls.filter (·.frames ≠ [])).length ≤ 1))

theorem seamless_iff {calls : List Activations} :
    Seamless c calls ↔ (c.skip = 0 ∨ ∀ x ∈ calls, x.isRows = true) ∧
      ((calls.map Activations.frames).map (List.drop c.skip)).flatten =
        (calls.flatMap Activations.frames).drop c.skip := by
  have hfilter : ((calls.map Activations.frames).filter (· ≠ [])).length =
      (calls.filter (·.frames ≠ [])).length := by
    rw [List.filter_map, List.length_map]
    rfl
  rw [List.flatMap, flatten_map_drop_eq_iff, hfilter, Seamless, List.flatMap]
  tauto

/-- One call on all frames and calls on consecutive pieces of them reach the
same state and return the same rows exactly when the cuts are seamless. -/
theorem chunking_independence (h0 : 0 ≤ c.offset) {first : Activations}
    {calls : List Activations} {r : Cascade × List Row}
    (hwhole : (process c rng (.rows ((first :: calls).flatMap Activations.frames)) s).run g =
      .ok (r, g')) :
    (processCalls c rng first calls s).run g = .ok (r, g') ↔ Seamless c (first :: calls) := by
  obtain ⟨t, rows⟩ := r
  obtain ⟨frames, hframes, hrun, hrows⟩ := process_ok.mp hwhole
  obtain ⟨_, rfl⟩ := (framesOf_ok h0).mp hframes
  rw [processCalls_ok, seamless_iff]
  apply Iff.intro
  · intro h
    obtain ⟨chunks, hchunks, hrun', _⟩ := h
    obtain ⟨hall, rfl⟩ := (forall_framesOf_ok h0).mp hchunks
    refine ⟨hall, (flatten_map_drop_sublist _ _).eq_of_length ?_⟩
    have hcounter := (Steps.iff_processFrames.mpr hrun).counter
    have hcounter' := (Steps.iff_processFrames.mpr hrun').counter
    rw [hcounter] at hcounter'
    have hlen := add_left_cancel hcounter'
    exact_mod_cast hlen.symm
  · intro h
    obtain ⟨hall, heq⟩ := h
    refine ⟨_, (forall_framesOf_ok h0).mpr ⟨hall, rfl⟩, ?_, hrows⟩
    rw [heq]
    exact hrun

theorem chunking_independence_small :
    ∃ r, (process (small 0 (4 / 10)) Rng.least (.rows [clearBeat, clearBeat, silence])
        ⟨-1, [], [0], [0]⟩).run () = .ok (r, ()) ∧
      (processCalls (small 0 (4 / 10)) Rng.least (.row clearBeat) [.rows [clearBeat, silence]]
        ⟨-1, [], [0], [0]⟩).run () = .ok (r, ()) := by
  have hwhole : (process (small 0 (4 / 10)) Rng.least
      (.rows ([.row clearBeat, .rows [clearBeat, silence]].flatMap Activations.frames))
      ⟨-1, [], [0], [0]⟩).run () = .ok ((⟨2, [], [0], [1]⟩, []), ()) := by decide +kernel
  have hseam : Seamless (small 0 (4 / 10)) [.row clearBeat, .rows [clearBeat, silence]] :=
    .inl (by decide +kernel)
  exact ⟨_, hwhole, (chunking_independence le_rfl hwhole).mpr hseam⟩

/-- With an offset of one frame, two calls of one frame each process nothing. -/
theorem chunking_dependence :
    ¬ ∀ (first : Activations) (calls : List Activations) (s : Cascade) (r : Cascade × List Row),
      Run (small (1 / 50) (4 / 10)) Rng.least Any [] s () →
      (process (small (1 / 50) (4 / 10)) Rng.least
        (.rows ((first :: calls).flatMap Activations.frames)) s).run () = .ok (r, ()) →
      (processCalls (small (1 / 50) (4 / 10)) Rng.least first calls s).run () = .ok (r, ()) := by
  intro h
  have hrun : Run (small (1 / 50) (4 / 10)) Rng.least Any [] ⟨-1, [], [0], [0]⟩ () :=
    run_of_simulate (by decide +kernel)
  have hwhole : (process (small (1 / 50) (4 / 10)) Rng.least (.rows [silence, silence])
      ⟨-1, [], [0], [0]⟩).run () = .ok ((⟨0, [], [1], [0]⟩, []), ()) := by decide +kernel
  have hcalls : (processCalls (small (1 / 50) (4 / 10)) Rng.least (.rows [silence])
      [.rows [silence]] ⟨-1, [], [0], [0]⟩).run () = .ok ((⟨-1, [], [0], [0]⟩, []), ()) := by
    decide +kernel
  have heq := h (.rows [silence]) [.rows [silence]] _ _ hrun hwhole
  rw [hcalls] at heq
  cases heq

end BeatNet
