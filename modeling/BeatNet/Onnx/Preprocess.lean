import BeatNet.Onnx.FrameProcessor
import Mathlib.Algebra.Field.Defs
import Mathlib.Data.List.Infix
import Mathlib.Order.Lattice

namespace BeatNet.Onnx

open Library.Machines

variable {K ρ : Type} [Field K] [LinearOrder K]

def frameLength : ℕ := 22050 * 64 / 1000

def hopSize : ℕ := 22050 * 20 / 1000

def fftSize : ℕ := frameLength / 2 + 1

def fbankSize : ℕ := 272

theorem frameLength_pos : 0 < frameLength := by decide

def logCompress (log10 : K → K) (mul add : K) (input : List K) : List K :=
  input.map fun x ↦ log10 (max (mul * x + add) (1 / 10 ^ 6))

/-- `spectral_diff`, with the new value of `previous`. The loop reads `previous`
at every index of `current`. -/
def spectralDiff (positiveDiffs : Bool) (current previous : List K)
    (_ : previous = [] ∨ previous.length = current.length) : List K × List K :=
  if previous = [] then (List.replicate current.length 0, current)
  else
    (List.zipWith (fun x y ↦ if positiveDiffs then max 0 (x - y) else x - y) current previous,
      current)

def hstack (a b out : List K) (_ : out.length = a.length + b.length) : List K := a ++ b

/-- The transform, the filter bank and the logarithm that the preprocessing is built with. -/
structure Analysis (K : Type) where
  computeFft : List K → List K
  apply : List K → List K
  log10 : K → K
  length_apply : ∀ spectrum, (apply spectrum).length = fbankSize / 2

structure Parts (ρ K : Type) extends Analysis K where
  resample : List K → ρ → List K × ρ

/-- The fields of the class `BeatNet` that outlive a call of `preprocess`. -/
@[ext]
structure Tracker (ρ K : Type) where
  resampler : ρ
  signalProcessor : FramedSignalProcessor K
  prevLogFb : List K
  preprocessedInput : List K
  frameSize_signalProcessor : signalProcessor.frameSize = frameLength
  length_prevLogFb : prevLogFb = [] ∨ prevLogFb.length = fbankSize / 2
  length_preprocessedInput : preprocessedInput.length = fbankSize

def Analysis.logBands (analysis : Analysis K) (frame : List K) : List K :=
  logCompress analysis.log10 1 1 (analysis.apply (analysis.computeFft frame))

theorem Analysis.length_logBands (analysis : Analysis K) (frame : List K) :
    (analysis.logBands frame).length = fbankSize / 2 := by
  rw [logBands, logCompress, List.length_map, analysis.length_apply]

theorem Analysis.logBands_eq (analysis : Analysis K) (frame : List K) :
    analysis.logBands frame = (analysis.apply (analysis.computeFft frame)).map fun x ↦
      analysis.log10 (max (x + 1) (1 / 10 ^ 6)) := by
  simp only [logBands, logCompress, one_mul]

theorem length_spectralDiff {positiveDiffs : Bool} {current previous : List K}
    (h : previous = [] ∨ previous.length = current.length) :
    (spectralDiff positiveDiffs current previous h).1.length = current.length := by
  by_cases hp : previous = []
  · rw [spectralDiff, if_pos hp, List.length_replicate]
  · rw [spectralDiff, if_neg hp, List.length_zipWith, h.resolve_left hp, min_self]

namespace Tracker

def new (resampler : ρ) : Tracker ρ K where
  resampler := resampler
  signalProcessor := .new frameLength hopSize frameLength_pos
  prevLogFb := []
  preprocessedInput := List.replicate fbankSize 0
  frameSize_signalProcessor := rfl
  length_prevLogFb := .inl rfl
  length_preprocessedInput := List.length_replicate

theorem length_previous (analysis : Analysis K) (frame : List K) (b : Tracker ρ K) :
    b.prevLogFb = [] ∨ b.prevLogFb.length = (analysis.logBands frame).length := by
  rw [analysis.length_logBands]
  exact b.length_prevLogFb

theorem length_stacked (analysis : Analysis K) (frame : List K) (b : Tracker ρ K) :
    b.preprocessedInput.length = (analysis.logBands frame).length +
      (spectralDiff true (analysis.logBands frame) b.prevLogFb
        (b.length_previous analysis frame)).1.length := by
  rw [length_spectralDiff, analysis.length_logBands, b.length_preprocessedInput]
  rfl

/-- `preprocess`, on the vector `preprocessed_input` as `process` calls it. -/
def preprocess (parts : Parts ρ K) (rawInput : List K) (b : Tracker ρ K) : Bool × Tracker ρ K :=
  let resampled := parts.resample rawInput b.resampler
  let framed := b.signalProcessor.processed resampled.1
  match framed.1 with
  | none => (false, { b with
      resampler := resampled.2
      signalProcessor := framed.2
      frameSize_signalProcessor :=
        (FramedSignalProcessor.processed_frameSize _ _).trans b.frameSize_signalProcessor })
  | some frame =>
    let logFb := parts.logBands frame
    let diff := spectralDiff true logFb b.prevLogFb (b.length_previous parts.toAnalysis frame)
    (true, {
      resampler := resampled.2
      signalProcessor := framed.2
      prevLogFb := logFb
      preprocessedInput :=
        hstack logFb diff.1 b.preprocessedInput (b.length_stacked parts.toAnalysis frame)
      frameSize_signalProcessor :=
        (FramedSignalProcessor.processed_frameSize _ _).trans b.frameSize_signalProcessor
      length_prevLogFb := .inr (parts.length_logBands frame)
      length_preprocessedInput := by
        rw [hstack, List.length_append, ← b.length_stacked parts.toAnalysis frame]
        exact b.length_preprocessedInput })

omit [LinearOrder K] in
/-- The ring of 1552 samples is short enough for every index. -/
theorem process_signalProcessor (b : Tracker ρ K) (input : List K) :
    b.signalProcessor.process input = some (b.signalProcessor.processed input) := by
  apply FramedSignalProcessor.process_of_le
  · rw [b.frameSize_signalProcessor]
    exact frameLength_pos
  · rw [b.signalProcessor.ringSize_eq, b.frameSize_signalProcessor]
    decide

theorem preprocess_resampler (parts : Parts ρ K) (rawInput : List K) (b : Tracker ρ K) :
    (b.preprocess parts rawInput).2.resampler = (parts.resample rawInput b.resampler).2 := by
  rw [preprocess]
  split <;> rfl

theorem preprocess_signalProcessor (parts : Parts ρ K) (rawInput : List K) (b : Tracker ρ K) :
    (b.preprocess parts rawInput).2.signalProcessor =
      (b.signalProcessor.processed (parts.resample rawInput b.resampler).1).2 := by
  rw [preprocess]
  split <;> rfl

theorem preprocess_isSome (parts : Parts ρ K) (rawInput : List K) (b : Tracker ρ K) :
    (b.preprocess parts rawInput).1 =
      (b.signalProcessor.processed (parts.resample rawInput b.resampler).1).1.isSome := by
  rw [preprocess]
  split
  · rename_i hnone
    rw [hnone]
    rfl
  · rename_i hsome
    rw [hsome]
    rfl

theorem preprocess_none {parts : Parts ρ K} {rawInput : List K} {b : Tracker ρ K}
    (h : (b.signalProcessor.processed (parts.resample rawInput b.resampler).1).1 = none) :
    b.preprocess parts rawInput = (false, { b with
      resampler := (parts.resample rawInput b.resampler).2
      signalProcessor :=
        (b.signalProcessor.processed (parts.resample rawInput b.resampler).1).2
      frameSize_signalProcessor :=
        (FramedSignalProcessor.processed_frameSize _ _).trans b.frameSize_signalProcessor }) := by
  rw [preprocess]
  split
  · rfl
  · rename_i hsome
    cases h.symm.trans hsome

theorem preprocess_some {parts : Parts ρ K} {rawInput frame : List K} {b : Tracker ρ K}
    (h : (b.signalProcessor.processed (parts.resample rawInput b.resampler).1).1 = some frame) :
    (b.preprocess parts rawInput).1 = true ∧
      (b.preprocess parts rawInput).2.prevLogFb = parts.logBands frame ∧
      (b.preprocess parts rawInput).2.preprocessedInput = parts.logBands frame ++
        (spectralDiff true (parts.logBands frame) b.prevLogFb
          (b.length_previous parts.toAnalysis frame)).1 := by
  rw [preprocess]
  split
  · rename_i hnone
    cases h.symm.trans hnone
  · rename_i frame' hsome
    cases h.symm.trans hsome
    exact ⟨rfl, rfl, rfl⟩

end Tracker

section Heard

variable {parts : Parts ρ K} {r₀ : ρ} {raws : List (List K)}

def resampled (parts : Parts ρ K) (r₀ : ρ) (raws : List (List K)) : List (List K) :=
  (trace parts.resample raws r₀).1

/-- The log filter-bank values of the last samples heard, for every call up to
which enough samples have been heard. -/
def bandsHeard (parts : Parts ρ K) (r₀ : ρ) (raws : List (List K)) : List (List K) :=
  (((resampled parts r₀ raws).inits.tail.map List.flatten).filter
    fun stream ↦ frameLength ≤ stream.length).map fun stream ↦
      (parts.apply (parts.computeFft (stream.rtake frameLength))).map fun x ↦
        parts.log10 (max (x + 1) (1 / 10 ^ 6))

def difference (now : List K) : Option (List K) → List K
  | none => List.replicate now.length 0
  | some before => List.zipWith (fun x y ↦ max 0 (x - y)) now before

omit [Field K] [LinearOrder K] in
theorem resampled_concat (raw : List K) :
    resampled parts r₀ (raws ++ [raw]) =
      resampled parts r₀ raws ++ [(parts.resample raw (trace parts.resample raws r₀).2).1] := by
  rw [resampled, trace_concat]
  rfl

theorem inits_concat_tail {α : Type} (l : List α) (x : α) :
    (l ++ [x]).inits.tail = l.inits.tail ++ [l ++ [x]] := by
  rw [List.inits_append]
  cases l <;> rfl

theorem bandsHeard_concat (raw : List K) :
    bandsHeard parts r₀ (raws ++ [raw]) =
      bandsHeard parts r₀ raws ++
        if frameLength ≤ (resampled parts r₀ (raws ++ [raw])).flatten.length then
          [parts.logBands ((resampled parts r₀ (raws ++ [raw])).flatten.rtake frameLength)]
        else [] := by
  rw [bandsHeard, resampled_concat, inits_concat_tail, List.map_append, List.filter_append,
    List.map_append, ← resampled_concat, ← bandsHeard, List.map_cons, List.map_nil]
  congr 1
  split_ifs with hlen
  · rw [List.filter_cons_of_pos (by exact decide_eq_true hlen)]
    exact congrArg ([·]) (parts.logBands_eq _).symm
  · rw [List.filter_cons_of_neg (by simpa only [decide_eq_true_eq] using hlen)]
    rfl

theorem length_bandsHeard : ∀ bands ∈ bandsHeard parts r₀ raws, bands.length = fbankSize / 2 := by
  intro bands hmem
  obtain ⟨stream, _, rfl⟩ := List.mem_map.mp hmem
  rw [List.length_map, parts.length_apply]

theorem spectralDiff_bandsHeard {now previous : List K}
    (hprev : previous = (bandsHeard parts r₀ raws).getLast?.getD [])
    (h : previous = [] ∨ previous.length = now.length) :
    (spectralDiff true now previous h).1 = difference now (bandsHeard parts r₀ raws).getLast? := by
  rw [spectralDiff]
  cases hlast : (bandsHeard parts r₀ raws).getLast? with
  | none =>
    rw [hlast, Option.getD_none] at hprev
    rw [if_pos hprev]
    rfl
  | some bands =>
    rw [hlast, Option.getD_some] at hprev
    subst hprev
    have hlen := length_bandsHeard previous (List.mem_of_getLast? hlast)
    have hne : previous ≠ [] := by
      rintro rfl
      cases hlen
    rw [if_neg hne]
    rfl

/-- What the tracker remembers: the resampled stream, and the values of the last true call. -/
structure Follows (parts : Parts ρ K) (r₀ : ρ) (raws : List (List K)) (b : Tracker ρ K) :
    Prop where
  resampler : b.resampler = (trace parts.resample raws r₀).2
  heard : Heard frameLength b.signalProcessor (resampled parts r₀ raws).flatten
  prevLogFb : b.prevLogFb = (bandsHeard parts r₀ raws).getLast?.getD []

structure Answers (parts : Parts ρ K) (r₀ : ρ) (raws : List (List K)) (raw : List K)
    (b : Tracker ρ K) (out : Bool × Tracker ρ K) : Prop where
  flag : out.1 = decide (frameLength ≤ (resampled parts r₀ (raws ++ [raw])).flatten.length)
  features : out.1 = true → ∃ now, bandsHeard parts r₀ (raws ++ [raw]) =
    bandsHeard parts r₀ raws ++ [now] ∧
      now = (parts.apply (parts.computeFft
        ((resampled parts r₀ (raws ++ [raw])).flatten.rtake frameLength))).map (fun x ↦
          parts.log10 (max (x + 1) (1 / 10 ^ 6))) ∧
      out.2.preprocessedInput = now ++ difference now (bandsHeard parts r₀ raws).getLast?
  skipped : out.1 = false →
    out.2.prevLogFb = b.prevLogFb ∧ out.2.preprocessedInput = b.preprocessedInput

theorem Follows.new : Follows parts r₀ [] (Tracker.new r₀) :=
  ⟨rfl, Heard.new frameLength_pos, rfl⟩

theorem Follows.preprocess {b : Tracker ρ K} (h : Follows parts r₀ raws b) (raw : List K) :
    Answers parts r₀ raws raw b (b.preprocess parts raw) ∧
      Follows parts r₀ (raws ++ [raw]) (b.preprocess parts raw).2 := by
  have hstream : (resampled parts r₀ raws).flatten ++ (parts.resample raw b.resampler).1 =
      (resampled parts r₀ (raws ++ [raw])).flatten := by
    rw [resampled_concat, List.flatten_append, h.resampler]
    simp
  have hstep := h.heard.processed (parts.resample raw b.resampler).1
  have hbands : bandsHeard parts r₀ (raws ++ [raw]) = bandsHeard parts r₀ raws ++ _ :=
    bandsHeard_concat raw
  have hnext : (parts.resample raw b.resampler).2 =
      (trace parts.resample (raws ++ [raw]) r₀).2 := by
    rw [trace_concat, h.resampler]
  rw [listen, hstream] at hstep
  dsimp only at hstep
  by_cases hlen : frameLength ≤ (resampled parts r₀ (raws ++ [raw])).flatten.length
  · rw [if_pos hlen] at hstep hbands
    obtain ⟨hflag, hlog, hout⟩ := Tracker.preprocess_some hstep.1
    refine ⟨⟨?_, ?_, ?_⟩, ?_, ?_, ?_⟩
    · rw [hflag, decide_eq_true hlen]
    · intro _
      refine ⟨_, hbands, parts.logBands_eq _, ?_⟩
      rw [hout, spectralDiff_bandsHeard h.prevLogFb]
    · intro hfalse
      rw [hflag] at hfalse
      cases hfalse
    · rw [Tracker.preprocess_resampler, hnext]
    · rw [Tracker.preprocess_signalProcessor]
      exact hstep.2
    · rw [hlog, hbands, List.getLast?_append, List.getLast?_singleton]
      rfl
  · rw [if_neg hlen] at hstep hbands
    rw [List.append_nil] at hbands
    rw [Tracker.preprocess_none hstep.1]
    refine ⟨⟨(decide_eq_false hlen).symm, by simp, fun _ ↦ ⟨rfl, rfl⟩⟩, ⟨hnext, hstep.2, ?_⟩⟩
    rw [hbands]
    exact h.prevLogFb

theorem follows_trace (parts : Parts ρ K) (r₀ : ρ) (raws : List (List K)) :
    Follows parts r₀ raws (trace (Tracker.preprocess parts) raws (Tracker.new r₀)).2 := by
  induction raws using List.reverseRecOn with
  | nil => exact Follows.new
  | append_singleton raws raw ih =>
    rw [trace_concat]
    exact (ih.preprocess raw).2

theorem count_trace (parts : Parts ρ K) (r₀ : ρ) (raws : List (List K)) :
    (trace (Tracker.preprocess parts) raws (Tracker.new r₀)).1.count true =
      (bandsHeard parts r₀ raws).length := by
  induction raws using List.reverseRecOn with
  | nil => rfl
  | append_singleton raws raw ih =>
    have hflag := ((follows_trace parts r₀ raws).preprocess raw).1.flag
    rw [trace_concat, List.count_append, ih, hflag, bandsHeard_concat, List.length_append]
    split_ifs with hlen
    · rw [decide_eq_true hlen]
      rfl
    · rw [decide_eq_false hlen]
      rfl

/-- After any calls, one more call returns true exactly when enough samples
have been heard; it then outputs the values of the last of them and their rectified
difference to those of the true call before, and otherwise leaves both as they were. -/
theorem preprocess_features (parts : Parts ρ K) (r₀ : ρ) (raws : List (List K)) (raw : List K) :
    (trace (Tracker.preprocess parts) raws (Tracker.new r₀)).1.count true =
        (bandsHeard parts r₀ raws).length ∧
      Answers parts r₀ raws raw (trace (Tracker.preprocess parts) raws (Tracker.new r₀)).2
        ((trace (Tracker.preprocess parts) raws (Tracker.new r₀)).2.preprocess parts raw) :=
  ⟨count_trace parts r₀ raws, ((follows_trace parts r₀ raws).preprocess raw).1⟩

end Heard

end BeatNet.Onnx
