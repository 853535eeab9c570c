import BeatNet.Library.Machines
import BeatNet.Library.Readers
import BeatNet.Onnx.Machine
import Mathlib.Data.List.ReduceOption

namespace BeatNet.Onnx

open Library.Readers Library.Machines Library.Floats

variable {α σ : Type}

/-- How a call of `setup` ends: it returns, it throws with a part of its stores made, or the cast of
a value that is no `long` is undefined. -/
inductive Outcome (σ : Type)
  | done (s : σ)
  | thrown (s : σ)
  | undefined
  deriving DecidableEq

namespace Outcome

variable {σ τ : Type}

def state : Outcome σ → Option σ
  | done s => some s
  | thrown s => some s
  | undefined => none

def returned : Outcome σ → Option σ
  | done s => some s
  | thrown _ => none
  | undefined => none

def map (f : σ → τ) : Outcome σ → Outcome τ
  | done s => done (f s)
  | thrown s => thrown (f s)
  | undefined => undefined

theorem state_map_eq_some {f : σ → τ} {o : Outcome σ} {t : τ} :
    (o.map f).state = some t ↔ ∃ s, o.state = some s ∧ f s = t := by
  cases o <;> simp [map, state]

theorem returned_eq_some {o : Outcome σ} {s : σ} : o.returned = some s ↔ o = .done s := by
  cases o <;> simp [returned]

theorem map_eq_done {f : σ → τ} {o : Outcome σ} {t : τ} :
    o.map f = .done t ↔ ∃ s, o = .done s ∧ f s = t := by
  cases o <;> simp [map]

end Outcome

def srBeatnet : ℚ := 22050

/-- `resize` keeps the first elements and fills up with zeros. -/
def resize [Zero α] (n : ℕ) (l : List α) : List α :=
  l.take n ++ List.replicate (n - l.length) 0

/-- A vector cannot be resized to a negative length, and not be made longer if there is no memory for
so many samples. -/
def Resizes (fits : ℕ → Bool) (n : ℤ) (l : List α) : Prop :=
  0 ≤ n ∧ (n ≤ l.length ∨ fits n.toNat = true)

instance (fits : ℕ → Bool) (n : ℤ) (l : List α) : Decidable (Resizes fits n l) :=
  inferInstanceAs (Decidable (_ ∧ _))

def overwrite (written buffer : List α) : List α :=
  written.take buffer.length ++ buffer.drop written.length

structure CallbackData (α : Type) where
  input : List α
  totalFrames : ℤ
  position : ℤ

/-- A region of the block, as the callback hands it over, and the samples that are in it. -/
structure Handed (α : Type) where
  start : ℤ
  frames : ℤ
  samples : List α
  deriving DecidableEq

def callback (cb : CallbackData α) : Option (Handed α) × CallbackData α :=
  if cb.totalFrames ≤ cb.position then (none, cb)
  else
    let remaining := cb.totalFrames - cb.position
    let samples := (cb.input.drop cb.position.toNat).take remaining.toNat
    (some ⟨cb.position, remaining, samples⟩, { cb with position := cb.position + remaining })

/-- A sample-rate converter: what `src_callback_new` makes, and what
`src_callback_read` writes for a ratio and a number of frames, which it never
exceeds. How often it asks the callback is its own affair. -/
structure Converter (α σ : Type) where
  new : σ
  read : ℚ → ℤ → σ → Reader (Option (Handed α)) (List α × σ)
  length_read : ∀ ratio frames s cb,
    ((read ratio frames s).serve callback cb).1.1.length ≤ frames.toNat

/-- Between two calls only `total_frames` of the callback's data is of use. -/
structure Resampler (α : Type) where
  ratio : ℚ
  bufferSize : ℤ
  outputFrameCount : ℤ
  totalFrames : ℤ
  silence : List α
  outputBuffer : List α
  deriving DecidableEq

namespace Resampler

structure Constructed (r : Resampler α) : Prop where
  silence : r.silence = []
  outputBuffer : r.outputBuffer = []

/-- `output_frame_count`: the product, rounded by adding a half and cutting off. -/
def frameCount (m : Machine) (bufferSize : ℤ) (ratio : ℚ) : Option ℤ := do
  let size ← (m.float bufferSize).rational
  let product ← (m.double (size * ratio)).rational
  let sum ← (m.double (product + 1 / 2)).rational
  m.long sum

def setup [Zero α] (m : Machine) (inputSr outputSr : Value) (bufferSize : ℤ) (r : Resampler α) :
    Outcome (Resampler α) :=
  if 0 < bufferSize then
    -- a ratio that is infinite or no number makes a count that no `long` is
    match (Value.div m.double outputSr inputSr).rational with
    | none => .undefined
    | some ratio =>
      match frameCount m bufferSize ratio with
      | none => .undefined
      | some outputFrameCount =>
        let stored :=
          { r with ratio := ratio, bufferSize := bufferSize, outputFrameCount := outputFrameCount }
        if Resizes m.silenceFits outputFrameCount r.silence then
          let resized := { stored with silence := resize outputFrameCount.toNat r.silence }
          if Resizes m.outputFits outputFrameCount r.outputBuffer then
            .done { resized with
              outputBuffer := resize outputFrameCount.toNat r.outputBuffer
              totalFrames := bufferSize }
          else .thrown resized
        else .thrown stored
  else .done r

def reader (conv : Converter α σ) (r : Resampler α) : Reader (Option (Handed α)) (List α × σ) :=
  conv.read r.ratio r.outputFrameCount conv.new

def callbackData (input : List α) (r : Resampler α) : CallbackData α := ⟨input, r.totalFrames, 0⟩

def handed (conv : Converter α σ) (input : List α) (r : Resampler α) : List (Handed α) :=
  ((r.reader conv).serve callback (r.callbackData input)).2.1.reduceOption

/-- The vector returned is the whole buffer, however many frames were written. -/
def resample (conv : Converter α σ) (input : List α) (r : Resampler α) :
    List α × Resampler α :=
  if input = [] then (r.silence, r)
  else
    let written := ((r.reader conv).serve callback (r.callbackData input)).1.1
    let outputBuffer := overwrite written r.outputBuffer
    (outputBuffer, { r with outputBuffer := outputBuffer })

end Resampler

theorem length_resize [Zero α] (n : ℕ) (l : List α) : (resize n l).length = n := by
  rw [resize, List.length_append, List.length_take, List.length_replicate]
  omega

theorem resize_zeros [Zero α] {l : List α} (n : ℕ) (h : ∀ x ∈ l, x = 0) :
    resize n l = List.replicate n 0 := by
  refine List.eq_replicate_iff.mpr ⟨length_resize n l, fun x hx ↦ ?_⟩
  rcases List.mem_append.mp hx with hx | hx
  · exact h x (List.mem_of_mem_take hx)
  · exact List.eq_of_mem_replicate hx

theorem length_overwrite (written buffer : List α) :
    (overwrite written buffer).length = buffer.length := by
  rw [overwrite, List.length_append, List.length_take, List.length_drop]
  omega

namespace Resampler

variable {m : Machine} {conv : Converter α σ} {r r' : Resampler α} {inputSr outputSr : Value}
  {bufferSize : ℤ}

theorem setup_rejected [Zero α] (h : ¬ 0 < bufferSize) :
    r.setup m inputSr outputSr bufferSize = .done r := if_neg h

structure Requested (m : Machine) (inputSr outputSr : Value) (bufferSize : ℤ) (ratio : ℚ)
    (count : ℤ) : Prop where
  size : 0 < bufferSize
  quotient : Value.div m.double outputSr inputSr = .finite ratio
  cast : frameCount m bufferSize ratio = some count

theorem Requested.unique {ratio ratio' : ℚ} {count count' : ℤ}
    (h : Requested m inputSr outputSr bufferSize ratio count)
    (h' : Requested m inputSr outputSr bufferSize ratio' count') : ratio = ratio' ∧ count = count' := by
  obtain rfl := Value.finite.inj (h.quotient.symm.trans h'.quotient)
  exact ⟨rfl, Option.some.inj (h.cast.symm.trans h'.cast)⟩

theorem setup_eq [Zero α] {ratio : ℚ} {count : ℤ}
    (h : Requested m inputSr outputSr bufferSize ratio count) :
    r.setup m inputSr outputSr bufferSize =
      if Resizes m.silenceFits count r.silence then
        if Resizes m.outputFits count r.outputBuffer then
          .done {
            ratio := ratio
            bufferSize := bufferSize
            outputFrameCount := count
            totalFrames := bufferSize
            silence := resize count.toNat r.silence
            outputBuffer := resize count.toNat r.outputBuffer }
        else .thrown { r with
          ratio := ratio
          bufferSize := bufferSize
          outputFrameCount := count
          silence := resize count.toNat r.silence }
      else .thrown { r with
        ratio := ratio
        bufferSize := bufferSize
        outputFrameCount := count } := by
  rw [setup, if_pos h.size, Value.rational_eq_some.mpr h.quotient]
  simp only [h.cast]

theorem setup_undefined [Zero α] (hsize : 0 < bufferSize)
    (h : ∀ ratio count, ¬ Requested m inputSr outputSr bufferSize ratio count) :
    r.setup m inputSr outputSr bufferSize = .undefined := by
  rw [setup, if_pos hsize]
  cases hratio : (Value.div m.double outputSr inputSr).rational with
  | none => rfl
  | some ratio =>
    cases hcount : frameCount m bufferSize ratio with
    | none => simp only [hcount]
    | some count => exact absurd ⟨hsize, Value.rational_eq_some.mp hratio, hcount⟩ (h ratio count)

theorem exists_requested [Zero α] (hsize : 0 < bufferSize)
    (h : r.setup m inputSr outputSr bufferSize ≠ .undefined) :
    ∃ ratio count, Requested m inputSr outputSr bufferSize ratio count := by
  by_contra hnone
  push Not at hnone
  exact h (setup_undefined hsize hnone)

theorem setup_accepted [Zero α] (hsize : 0 < bufferSize) :
    r.setup m inputSr outputSr bufferSize = .done r' ↔
      ∃ ratio count, Requested m inputSr outputSr bufferSize ratio count ∧
        Resizes m.silenceFits count r.silence ∧ Resizes m.outputFits count r.outputBuffer ∧
        r' = {
          ratio := ratio
          bufferSize := bufferSize
          outputFrameCount := count
          totalFrames := bufferSize
          silence := resize count.toNat r.silence
          outputBuffer := resize count.toNat r.outputBuffer } := by
  apply Iff.intro
  · intro h
    have hdefined : r.setup m inputSr outputSr bufferSize ≠ .undefined := by simp [h]
    obtain ⟨ratio, count, hrequested⟩ := exists_requested hsize hdefined
    rw [setup_eq hrequested] at h
    split_ifs at h with hsilence houtput
    cases h
    exact ⟨ratio, count, hrequested, hsilence, houtput, rfl⟩
  · intro h
    obtain ⟨ratio, count, hrequested, hsilence, houtput, rfl⟩ := h
    rw [setup_eq hrequested, if_pos hsilence, if_pos houtput]

theorem setup_thrown [Zero α] (h : r.setup m inputSr outputSr bufferSize = .thrown r') :
    ∃ ratio count, Requested m inputSr outputSr bufferSize ratio count ∧
      r'.ratio = ratio ∧ r'.outputFrameCount = count ∧ r'.outputBuffer = r.outputBuffer ∧
      (r'.silence = r.silence ∧ ¬ Resizes m.silenceFits count r.silence ∨
        r'.silence = resize count.toNat r.silence ∧
          ¬ Resizes m.outputFits count r.outputBuffer) := by
  by_cases hsize : 0 < bufferSize
  · have hdefined : r.setup m inputSr outputSr bufferSize ≠ .undefined := by simp [h]
    obtain ⟨ratio, count, hrequested⟩ := exists_requested hsize hdefined
    rw [setup_eq hrequested] at h
    refine ⟨ratio, count, hrequested, ?_⟩
    split_ifs at h with hsilence houtput
    · cases h
      exact ⟨rfl, rfl, rfl, .inr ⟨rfl, houtput⟩⟩
    · cases h
      exact ⟨rfl, rfl, rfl, .inl ⟨rfl, hsilence⟩⟩
  · rw [setup_rejected hsize] at h
    cases h

/-- A state that the next call finds is left by a call that was rejected, has returned or has
thrown. -/
theorem setup_cases [Zero α] (h : (r.setup m inputSr outputSr bufferSize).state = some r') :
    bufferSize ≤ 0 ∧ r' = r ∨
      0 < bufferSize ∧ r.setup m inputSr outputSr bufferSize = .done r' ∨
        r.setup m inputSr outputSr bufferSize = .thrown r' := by
  by_cases hsize : 0 < bufferSize
  · refine .inr ?_
    cases hcall : r.setup m inputSr outputSr bufferSize with
    | done t =>
      rw [hcall] at h
      cases h
      exact .inl ⟨hsize, rfl⟩
    | thrown t =>
      rw [hcall] at h
      cases h
      exact .inr rfl
    | undefined =>
      rw [hcall] at h
      cases h
  · rw [setup_rejected hsize] at h
    cases h
    exact .inl ⟨not_lt.mp hsize, rfl⟩

theorem length_resample (h : r.silence.length = r.outputBuffer.length) (input : List α) :
    (r.resample conv input).1.length = r.outputBuffer.length := by
  rw [resample]
  split_ifs
  · exact h
  · exact length_overwrite _ _

theorem resample_silence (input : List α) :
    (r.resample conv input).2.silence = r.silence := by
  rw [resample]
  split_ifs <;> rfl

theorem resample_outputBuffer (input : List α) :
    (r.resample conv input).2.outputBuffer = r.outputBuffer ∨
      (r.resample conv input).2.outputBuffer = (r.resample conv input).1 := by
  rw [resample]
  split_ifs
  · exact .inl rfl
  · exact .inr rfl

theorem length_resample_output (input : List α) :
    (r.resample conv input).2.outputBuffer.length = r.outputBuffer.length := by
  rw [resample]
  split_ifs
  · rfl
  · exact length_overwrite _ _

theorem length_trace_resample (h : r.silence.length = r.outputBuffer.length)
    (blocks : List (List α)) :
    ∀ out ∈ (trace (resample conv) blocks r).1, out.length = r.outputBuffer.length := by
  refine (trace_invariant (I := fun t : Resampler α ↦
    t.silence.length = r.outputBuffer.length ∧ t.outputBuffer.length = r.outputBuffer.length)
    (fun input t ht ↦ ?_) ⟨h, rfl⟩ blocks).1
  have hbuffer : (t.resample conv input).2.outputBuffer.length = t.outputBuffer.length :=
    length_resample_output input
  refine ⟨(length_resample (ht.1.trans ht.2.symm) input).trans ht.2, ?_, hbuffer.trans ht.2⟩
  rw [resample_silence, ht.1]

end Resampler

def returned (conv : Converter α σ) (blocks : List (List α)) (r : Resampler α) : List α :=
  (trace (Resampler.resample conv) blocks r).1.flatten

end BeatNet.Onnx
