import BeatNet.Onnx.Sessions
import Mathlib.Data.List.DropRight
import Mathlib.Data.List.GetD

namespace BeatNet.Onnx

open Library.Machines Library.Floats

variable {K ρ σ : Type} [Field K] [LinearOrder K]

abbrev Session (K : Type) := (Fin fbankSize → K) → Fin 3 → K

def tensor (features : List K) (i : Fin fbankSize) : K := features.getD i 0

namespace Tracker

def inputTensor (b : Tracker ρ K) (i : Fin fbankSize) : K :=
  b.preprocessedInput.get (i.cast b.length_preprocessedInput.symm)

def inference (session : Session K) (b : Tracker ρ K) : List K := List.ofFn (session b.inputTensor)

/-- `process`, with the vector that it puts its output in. -/
def process (parts : Parts ρ K) (session : Session K) (rawInput : List K)
    (s : Tracker ρ K × List K) : Bool × Tracker ρ K × List K :=
  let out := s.1.preprocess parts rawInput
  if out.1 then (true, out.2, out.2.inference session) else (false, out.2, s.2)

/-- The body of the loop of `main`, which prints the output of the calls that return true. -/
def printed (parts : Parts ρ K) (session : Session K) (rawInput : List K)
    (s : Tracker ρ K × List K) : Option (List K) × Tracker ρ K × List K :=
  let out := process parts session rawInput s
  (if out.1 then some out.2.2 else none, out.2)

omit [LinearOrder K] in
theorem inputTensor_eq (b : Tracker ρ K) : b.inputTensor = tensor b.preprocessedInput := by
  funext i
  have hlt : (i : ℕ) < b.preprocessedInput.length := by
    rw [b.length_preprocessedInput]
    exact i.isLt
  rw [inputTensor, tensor, List.getD_eq_getElem _ _ hlt]
  rfl

variable {parts : Parts ρ K} {session : Session K} {rawInput : List K} {s : Tracker ρ K × List K}

theorem printed_of_true (h : (s.1.preprocess parts rawInput).1 = true) :
    printed parts session rawInput s =
      (some ((s.1.preprocess parts rawInput).2.inference session),
        (s.1.preprocess parts rawInput).2,
        (s.1.preprocess parts rawInput).2.inference session) := by
  simp only [printed, process, h, if_true]

theorem printed_of_false (h : (s.1.preprocess parts rawInput).1 = false) :
    printed parts session rawInput s = (none, (s.1.preprocess parts rawInput).2, s.2) := by
  simp only [printed, process, h, Bool.false_eq_true, if_false]

theorem isSome_printed : (printed parts session rawInput s).1.isSome =
    (s.1.preprocess parts rawInput).1 := by
  cases h : (s.1.preprocess parts rawInput).1 with
  | true => rw [printed_of_true h, Option.isSome_some]
  | false => rw [printed_of_false h, Option.isSome_none]

theorem printed_tracker : (printed parts session rawInput s).2.1 =
    (s.1.preprocess parts rawInput).2 := by
  cases h : (s.1.preprocess parts rawInput).1 with
  | true => rw [printed_of_true h]
  | false => rw [printed_of_false h]

end Tracker

section Outputs

def stacked (before : Option (List K)) : List (List K) → List (List K)
  | [] => []
  | now :: rest => (now ++ difference now before) :: stacked (some now) rest

theorem stacked_concat (before : Option (List K)) (bands : List (List K)) (now : List K) :
    stacked before (bands ++ [now]) =
      stacked before bands ++ [now ++ difference now (bands.getLast?.or before)] := by
  induction bands generalizing before with
  | nil => rfl
  | cons first bands ih =>
    rw [List.cons_append, stacked, stacked, ih, List.cons_append, List.getLast?_cons]
    cases bands.getLast? <;> rfl

def featuresHeard (parts : Parts ρ K) (r₀ : ρ) (raws : List (List K)) : List (List K) :=
  stacked none (bandsHeard parts r₀ raws)

def answer (session : Session K) (features : List K) : List K :=
  List.ofFn (session (tensor features))

variable {parts : Parts ρ K} {session : Session K} {r₀ : ρ} {raws : List (List K)}
  {raw output : List K} {b : Tracker ρ K}

theorem featuresHeard_concat (now : List K)
    (h : bandsHeard parts r₀ (raws ++ [raw]) = bandsHeard parts r₀ raws ++ [now]) :
    featuresHeard parts r₀ (raws ++ [raw]) =
      featuresHeard parts r₀ raws ++
        [now ++ difference now (bandsHeard parts r₀ raws).getLast?] := by
  rw [featuresHeard, h, stacked_concat, Option.or_none]
  rfl

/-- The numbers that are printed over a run are what the session answers to the features of the
frames that have been heard, one by one, and the output keeps the last answer in between. -/
theorem process_outputs (parts : Parts ρ K) (session : Session K) (r₀ : ρ) (output : List K)
    (raws : List (List K)) :
    (trace (Tracker.printed parts session) raws (Tracker.new r₀, output)).1.reduceOption =
        (featuresHeard parts r₀ raws).map (answer session) ∧
      (trace (Tracker.printed parts session) raws (Tracker.new r₀, output)).2 =
        ((trace (Tracker.preprocess parts) raws (Tracker.new r₀)).2,
          ((featuresHeard parts r₀ raws).getLast?.map (answer session)).getD output) := by
  induction raws using List.reverseRecOn with
  | nil => exact ⟨rfl, rfl⟩
  | append_singleton raws raw ih =>
    obtain ⟨hprinted, hstate⟩ := ih
    have hanswers := ((follows_trace parts r₀ raws).preprocess raw).1
    rw [trace_concat, trace_concat, List.reduceOption_append, hprinted, hstate]
    by_cases hlen : frameLength ≤ (resampled parts r₀ (raws ++ [raw])).flatten.length
    · have hflag := hanswers.flag.trans (decide_eq_true hlen)
      obtain ⟨now, hbands, _, hout⟩ := hanswers.features hflag
      rw [featuresHeard_concat now hbands, Tracker.printed_of_true hflag, Tracker.inference,
        Tracker.inputTensor_eq, hout, List.map_append, List.getLast?_concat]
      exact ⟨rfl, rfl⟩
    · have hflag := hanswers.flag.trans (decide_eq_false hlen)
      have hheard : featuresHeard parts r₀ (raws ++ [raw]) = featuresHeard parts r₀ raws := by
        rw [featuresHeard, bandsHeard_concat, if_neg hlen, List.append_nil]
        rfl
      rw [hheard, Tracker.printed_of_false hflag]
      exact ⟨List.append_nil _, rfl⟩

end Outputs

section Memory

variable {parts : Parts ρ K} {session : Session K} {r₀ r₀' : ρ} {output output' raw raw' : List K}
  {raws raws' : List (List K)}

theorem bandsHeard_getLast? (h : frameLength ≤ (resampled parts r₀ raws).flatten.length) :
    (bandsHeard parts r₀ raws).getLast? =
      some (parts.logBands ((resampled parts r₀ raws).flatten.rtake frameLength)) := by
  induction raws using List.reverseRecOn with
  | nil => exact absurd h (Nat.not_le.mpr frameLength_pos)
  | append_singleton raws raw _ => rw [bandsHeard_concat, if_pos h, List.getLast?_concat]

theorem printed_eq (hbefore : frameLength ≤ (resampled parts r₀ raws).flatten.length) :
    (Tracker.printed parts session raw
        (trace (Tracker.printed parts session) raws (Tracker.new r₀, output)).2).1 =
      some (answer session
        (parts.logBands ((resampled parts r₀ (raws ++ [raw])).flatten.rtake frameLength) ++
          difference
            (parts.logBands ((resampled parts r₀ (raws ++ [raw])).flatten.rtake frameLength))
            (some (parts.logBands ((resampled parts r₀ raws).flatten.rtake frameLength))))) := by
  have hlen : frameLength ≤ (resampled parts r₀ (raws ++ [raw])).flatten.length := by
    rw [resampled_concat, List.flatten_append, List.length_append]
    omega
  have hanswers := ((follows_trace parts r₀ raws).preprocess raw).1
  have hflag := hanswers.flag.trans (decide_eq_true hlen)
  obtain ⟨now, _, hnow, hout⟩ := hanswers.features hflag
  rw [← Analysis.logBands_eq] at hnow
  rw [(process_outputs parts session r₀ output raws).2, Tracker.printed_of_true hflag,
    Tracker.inference, Tracker.inputTensor_eq, hout, bandsHeard_getLast? hbefore, hnow]
  rfl

/-- The session has no state and the tracker keeps one frame, so that what a call puts out is made
of the two last frames, however much has been heard before. -/
theorem finite_memory (session : Session K) (output output' : List K)
    (hbefore : frameLength ≤ (resampled parts r₀ raws).flatten.length)
    (hbefore' : frameLength ≤ (resampled parts r₀' raws').flatten.length)
    (hlast : (resampled parts r₀ raws).flatten.rtake frameLength =
      (resampled parts r₀' raws').flatten.rtake frameLength)
    (hnow : (resampled parts r₀ (raws ++ [raw])).flatten.rtake frameLength =
      (resampled parts r₀' (raws' ++ [raw'])).flatten.rtake frameLength) :
    (Tracker.printed parts session raw
        (trace (Tracker.printed parts session) raws (Tracker.new r₀, output)).2).1 =
      (Tracker.printed parts session raw'
        (trace (Tracker.printed parts session) raws' (Tracker.new r₀', output')).2).1 := by
  rw [printed_eq hbefore, printed_eq hbefore', hlast, hnow]

def loudness : Parts Unit ℚ where
  computeFft := id
  apply spectrum := List.replicate (fbankSize / 2) spectrum.sum
  log10 := id
  length_apply _ := List.length_replicate
  resample raw _ := (raw, ())

def firstBand : Session ℚ := fun x _ ↦ x ⟨0, by decide⟩

theorem finite_memory_first_sample :
    (Tracker.printed loudness firstBand [7] (trace (Tracker.printed loudness firstBand)
        [List.replicate 1411 1] (Tracker.new (), [])).2).1 =
      (Tracker.printed loudness firstBand [7] (trace (Tracker.printed loudness firstBand)
        [[3], List.replicate 1411 1] (Tracker.new (), [])).2).1 :=
  finite_memory firstBand [] [] (by decide +kernel) (by decide +kernel) (by decide +kernel)
    (by decide +kernel)

end Memory

section WarmUp

variable {m : Machine} {conv : Converter K σ} {analysis : Analysis K}
  {b t : Tracker (Resampler K) K} {sampleRate : Value} {samplesPerBlock : ℤ}

theorem flags_of_blocks (session : Session K) {count : ℕ} (output : List K) (raws : List (List K))
    (hsilence : t.resampler.silence.length = count)
    (hbuffer : t.resampler.outputBuffer.length = count) :
    (trace (Tracker.printed (wired conv analysis) session) raws (t, output)).1.map Option.isSome =
      (List.range raws.length).map fun k ↦ decide (frameLength ≤ t.heard + (k + 1) * count) := by
  induction raws generalizing t output with
  | nil => rfl
  | cons raw raws ih =>
    have hlen : (t.resampler.resample conv raw).1.length = count :=
      (Resampler.length_resample (hsilence.trans hbuffer.symm) raw).trans hbuffer
    have hflag : (t.preprocess (wired conv analysis) raw).1 =
        decide (frameLength ≤ t.heard + (t.resampler.resample conv raw).1.length) :=
      Tracker.preprocess_flag raw
    have hheard : (t.preprocess (wired conv analysis) raw).2.heard =
        t.heard + (t.resampler.resample conv raw).1.length := Tracker.preprocess_heard raw
    have hresampler : (t.preprocess (wired conv analysis) raw).2.resampler =
        (t.resampler.resample conv raw).2 := Tracker.preprocess_resampler _ _ _
    rw [hlen] at hflag hheard
    have hsome : (Tracker.printed (wired conv analysis) session raw (t, output)).1.isSome =
        (t.preprocess (wired conv analysis) raw).1 := Tracker.isSome_printed
    have hnext : (Tracker.printed (wired conv analysis) session raw (t, output)).2.1 =
        (t.preprocess (wired conv analysis) raw).2 := Tracker.printed_tracker
    have hrest := ih (t := (Tracker.printed (wired conv analysis) session raw (t, output)).2.1)
      (Tracker.printed (wired conv analysis) session raw (t, output)).2.2
      (by rw [hnext, hresampler, Resampler.resample_silence, hsilence])
      (by rw [hnext, hresampler, Resampler.length_resample_output, hbuffer])
    rw [hnext, hheard] at hrest
    rw [trace_cons, List.map_cons, hsome, hflag, List.length_cons, List.range_succ_eq_map,
      List.map_cons, List.map_map]
    refine congrArg₂ List.cons (by rw [zero_add, one_mul]) (Eq.trans ?_ (hrest.trans ?_))
    · rw [← hnext]
    · refine List.map_congr_left fun k _ ↦ ?_
      simp only [Function.comp_apply, Nat.succ_eq_add_one, add_mul, one_mul, add_assoc,
        add_left_comm]

/-- After a setup that has been accepted, outputs are printed from the block on that completes the
first frame, whatever is in the blocks. -/
theorem warm_up (conv : Converter K σ) (analysis : Analysis K) (session : Session K)
    (hsize : 0 < samplesPerBlock)
    (ht : b.setup m sampleRate samplesPerBlock = .done t) (output : List K)
    (raws : List (List K)) :
    ∃ ratio count, Value.div m.double srBeatnet (sampleRate.map m.float) = .finite ratio ∧
      Resampler.frameCount m samplesPerBlock ratio = some count ∧
      (trace (Tracker.printed (wired conv analysis) session) raws (t, output)).1.map
          Option.isSome =
        (List.range raws.length).map fun k ↦
          decide (frameLength ≤ b.heard + (k + 1) * count.toNat) := by
  obtain ⟨r, hr, rfl⟩ := Tracker.setup_done.mp ht
  obtain ⟨ratio, count, hrequested, _, _, rfl⟩ := (Resampler.setup_accepted hsize).mp hr
  exact ⟨ratio, count, hrequested.quotient, hrequested.cast,
    flags_of_blocks session output raws (length_resize _ _) (length_resize _ _)⟩

/-- The blocks and the sample rate of `main`: the last 7 of 30 calls print something. -/
theorem warm_up_main :
    ∃ t, (Tracker.new unset : Tracker (Resampler ℚ) ℚ).setup .ieee (96000 : ℚ) 256 = .done t ∧
      (trace (Tracker.printed (wired copying blind) fun _ _ ↦ 0) (List.replicate 30 [0])
        (t, [0, 0, 0])).1.map Option.isSome =
          List.replicate 23 false ++ List.replicate 7 true := by
  let rate : ℚ := ((Value.div Machine.ieee.double srBeatnet (96000 : ℚ)).rational).getD 0
  have hquotient : Value.div Machine.ieee.double srBeatnet
      (Value.map Machine.ieee.float (96000 : ℚ)) = .finite rate := by decide +kernel
  have hcount : Resampler.frameCount .ieee 256 rate = some 59 := by decide +kernel
  have ht := Tracker.setup_done.mpr ⟨_, (Resampler.setup_accepted
    (r := (Tracker.new unset : Tracker (Resampler ℚ) ℚ).resampler) (by decide : (0 : ℤ) < 256)).mpr
      ⟨rate, 59, ⟨by decide, hquotient, hcount⟩, ⟨by decide, .inr (by decide)⟩,
        ⟨by decide, .inr (by decide)⟩, rfl⟩, rfl⟩
  refine ⟨_, ht, ?_⟩
  obtain ⟨ratio, count, hratio, hcount', hflags⟩ :=
    warm_up copying blind (fun _ _ ↦ 0) (by decide) ht [0, 0, 0] (List.replicate 30 [0])
  cases hquotient.symm.trans hratio
  cases hcount.symm.trans hcount'
  rw [hflags]
  decide

end WarmUp

end BeatNet.Onnx
