import BeatNet.Onnx.Regions
import BeatNet.Library.Cuts

namespace BeatNet.Onnx

open Library.Readers Library.Machines Library.Cuts Library.Floats

variable {α σ : Type} {m : Machine} {conv : Converter α σ} {r r₀ : Resampler α}

def Converter.step (conv : Converter α σ) (ratio : ℚ) (frames : ℤ) (block : List α) (s : σ) :
    List α × σ :=
  ((conv.read ratio frames s).serve callback ⟨block, block.length, 0⟩).1

/-- What one converter, made once and fed the blocks in order, produces. -/
def produced (conv : Converter α σ) (ratio : ℚ) (frames : ℤ) (blocks : List (List α)) : List α :=
  (trace (conv.step ratio frames) blocks conv.new).1.flatten

/-- On blocks of a size, a new converter fills the request, and one that has been fed such blocks
before writes what a new one does. -/
structure Forgetful (conv : Converter α σ) (ratio : ℚ) (frames size : ℤ) : Prop where
  fills : ∀ block : List α, block.length = size →
    (conv.step ratio frames block conv.new).1.length = frames.toNat
  forgets : ∀ (before : List (List α)) (block : List α), (∀ b ∈ before, b.length = size) →
    block.length = size →
      (conv.step ratio frames block (trace (conv.step ratio frames) before conv.new).2).1 =
        (conv.step ratio frames block conv.new).1

theorem Converter.length_step (ratio : ℚ) (frames : ℤ) (block : List α) (s : σ) :
    (conv.step ratio frames block s).1.length ≤ frames.toNat :=
  conv.length_read ratio frames s _

theorem overwrite_of_length {written buffer : List α} (h : written.length = buffer.length) :
    overwrite written buffer = written := by
  rw [overwrite, h, List.drop_length, List.append_nil, ← h, List.take_length]

theorem Resampler.resample_eq {block : List α} (hne : block ≠ [])
    (htotal : r.totalFrames = block.length) :
    r.resample conv block =
      (overwrite (conv.step r.ratio r.outputFrameCount block conv.new).1 r.outputBuffer,
        { r with outputBuffer :=
          overwrite (conv.step r.ratio r.outputFrameCount block conv.new).1 r.outputBuffer }) := by
  rw [resample, if_neg hne, reader, callbackData, htotal]
  rfl

theorem trace_resample_eq {blocks : List (List α)} (hsized : r.Sized)
    (hblocks : ∀ block ∈ blocks, block ≠ [] ∧ r.totalFrames = block.length)
    (hfills : ∀ block ∈ blocks,
      (conv.step r.ratio r.outputFrameCount block conv.new).1.length = r.outputFrameCount.toNat) :
    (trace (Resampler.resample conv) blocks r).1 =
      blocks.map fun block ↦ (conv.step r.ratio r.outputFrameCount block conv.new).1 := by
  induction blocks generalizing r with
  | nil => rfl
  | cons block blocks ih =>
    obtain ⟨⟨hne, htotal⟩, hrest⟩ := List.forall_mem_cons.mp hblocks
    obtain ⟨hfill, hfills⟩ := List.forall_mem_cons.mp hfills
    have hlen : (conv.step r.ratio r.outputFrameCount block conv.new).1.length =
        r.outputBuffer.length := by rw [hfill, hsized, Int.toNat_natCast]
    have hnext : (r.resample conv block).2.Sized := Resampler.sized_resample hsized block
    rw [Resampler.resample_eq hne htotal] at hnext
    rw [trace_cons, Resampler.resample_eq hne htotal, ih hnext hrest hfills, List.map_cons,
      overwrite_of_length hlen]

/-- Where the request is filled, it is left to compare a fresh converter with the running one. -/
theorem returned_eq_produced_iff {blocks : List (List α)} (hsized : r.Sized)
    (hblocks : ∀ block ∈ blocks, block ≠ [] ∧ r.totalFrames = block.length)
    (hfills : ∀ block ∈ blocks,
      (conv.step r.ratio r.outputFrameCount block conv.new).1.length = r.outputFrameCount.toNat) :
    returned conv blocks r = produced conv r.ratio r.outputFrameCount blocks ↔
      ∀ before block, before ++ [block] <+: blocks →
        (conv.step r.ratio r.outputFrameCount block
          (trace (conv.step r.ratio r.outputFrameCount) before conv.new).2).1 =
            (conv.step r.ratio r.outputFrameCount block conv.new).1 := by
  have hproduced : ∀ out ∈ (trace (conv.step r.ratio r.outputFrameCount) blocks conv.new).1,
      out.length ≤ r.outputFrameCount.toNat :=
    (trace_invariant (I := fun _ ↦ True)
      (fun block s _ ↦ ⟨conv.length_step _ _ block s, trivial⟩) trivial blocks).1
  rw [returned, produced, trace_resample_eq hsized hblocks hfills, flatten_eq_flatten_iff
    (by rw [length_trace, List.length_map]) (by simpa using hfills) hproduced, eq_comm]
  exact trace_eq_map_iff conv.new blocks

theorem fills_of_returned {block : List α} (hsized : r.Sized) (hne : block ≠ [])
    (htotal : r.totalFrames = block.length)
    (h : returned conv [block] r = produced conv r.ratio r.outputFrameCount [block]) :
    (conv.step r.ratio r.outputFrameCount block conv.new).1.length =
      r.outputFrameCount.toNat := by
  have hlen : r.outputBuffer.length = r.outputFrameCount.toNat := by
    rw [hsized, Int.toNat_natCast]
  have hone := congrArg List.length h
  rw [returned, produced, trace_cons, trace_cons, Resampler.resample_eq hne htotal] at hone
  simpa [length_overwrite, hlen, eq_comm] using hone

/-- After a setup for their size, the vectors returned for the blocks of every stream join to the
output of one converter exactly when the converter has no memory and always fills the request. -/
theorem blockwise_resampling [Zero α] {inputSr outputSr : Value} {bufferSize : ℤ}
    (hsize : 0 < bufferSize) (hsetup : r₀.setup m inputSr outputSr bufferSize = .done r) :
    (∀ blocks : List (List α), (∀ block ∈ blocks, block.length = bufferSize) →
      returned conv blocks r = produced conv r.ratio r.outputFrameCount blocks) ↔
        Forgetful conv r.ratio r.outputFrameCount bufferSize := by
  obtain ⟨_, _, _, _, _, hr⟩ := (Resampler.setup_accepted hsize).mp hsetup
  have hsized := Resampler.sized_setup hsize hsetup
  have hblocks : ∀ block : List α, block.length = bufferSize →
      block ≠ [] ∧ r.totalFrames = block.length := by
    intro block hblock
    refine ⟨?_, by rw [hr, hblock]⟩
    rintro rfl
    rw [List.length_nil] at hblock
    omega
  apply Iff.intro
  · intro h
    have hfills : ∀ block : List α, block.length = bufferSize →
        (conv.step r.ratio r.outputFrameCount block conv.new).1.length =
          r.outputFrameCount.toNat := by
      intro block hblock
      obtain ⟨hne, htotal⟩ := hblocks block hblock
      exact fills_of_returned hsized hne htotal (h [block] (by simpa using hblock))
    refine ⟨hfills, fun before block hbefore hblock ↦ ?_⟩
    have hall : ∀ b ∈ before ++ [block], b.length = bufferSize := by
      intro b hb
      rcases List.mem_append.mp hb with hb | hb
      · exact hbefore b hb
      · exact List.mem_singleton.mp hb ▸ hblock
    exact (returned_eq_produced_iff hsized (fun b hb ↦ hblocks b (hall b hb))
      fun b hb ↦ hfills b (hall b hb)).mp (h _ hall) before block List.prefix_rfl
  · intro h blocks hall
    refine (returned_eq_produced_iff hsized (fun b hb ↦ hblocks b (hall b hb))
      fun b hb ↦ h.fills b (hall b hb)).mpr fun before block hmem ↦ ?_
    refine h.forgets before block (fun b hb ↦ ?_) ?_
    · exact hall b (hmem.subset (List.mem_append_left _ hb))
    · exact hall block (hmem.subset (List.mem_append_right _ List.mem_cons_self))

theorem blockwise_resampling_copying :
    returned (α := ℕ) copying [[1, 2], [3, 4]] ⟨1, 2, 2, 2, [0, 0], [0, 0]⟩ =
      produced copying 1 2 [[1, 2], [3, 4]] :=
  (blockwise_resampling (by decide)
    (show (unset : Resampler ℕ).setup .ieee srBeatnet srBeatnet 2 = .done _ by decide +kernel)).mpr
    ⟨fun block h ↦ by
      obtain ⟨_, _, rfl⟩ := List.length_eq_two.mp (Int.ofNat_inj.mp h)
      rfl, fun _ _ _ _ ↦ rfl⟩ _ (by decide)

def summing : Converter ℕ ℕ where
  new := 0
  read _ frames s := .ask fun
    | none => .ret ([], s)
    | some h => .ret (((h.samples.scanl (· + ·) s).tail).take frames.toNat, s + h.samples.sum)
  length_read := by
    intro ratio frames s cb
    rw [Reader.serve_ask]
    cases (callback cb).1 with
    | none => simp
    | some h => simp

/-- The converter of the second block knows nothing of the first. -/
theorem blockwise_resampling_restarts :
    ¬ ∀ (m : Machine) (conv : Converter ℕ ℕ) (inputSr outputSr : Value) (bufferSize : ℤ)
      (r : Resampler ℕ), 0 < bufferSize →
        unset.setup m inputSr outputSr bufferSize = .done r →
          ∀ blocks : List (List ℕ), (∀ block ∈ blocks, block.length = bufferSize) →
            returned conv blocks r = produced conv r.ratio r.outputFrameCount blocks := by
  intro h
  have heq := h .ieee summing srBeatnet srBeatnet 1 ⟨1, 1, 1, 1, [0], [0]⟩ (by decide)
    (by decide +kernel) [[1], [1]] (by decide)
  revert heq
  decide

end BeatNet.Onnx
