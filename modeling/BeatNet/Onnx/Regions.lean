import BeatNet.Onnx.Resampler

namespace BeatNet.Onnx

open Library.Readers Library.Floats

variable {α σ : Type} {m : Machine} {conv : Converter α σ} {r r' : Resampler α} {input : List α}

inductive Call (α : Type)
  | setup (inputSr outputSr : Value) (bufferSize : ℤ)
  | resample (input : List α)

def announce (announced : ℤ) : Call α → ℤ
  | .setup _ _ bufferSize => if 0 < bufferSize then bufferSize else announced
  | .resample _ => announced

namespace Resampler

variable [Zero α]

def call (m : Machine) (conv : Converter α σ) (r : Resampler α) : Call α → Option (Resampler α)
  | .setup inputSr outputSr bufferSize => (r.setup m inputSr outputSr bufferSize).returned
  | .resample input => some (r.resample conv input).2

def calls (m : Machine) (conv : Converter α σ) (r : Resampler α) (cs : List (Call α)) :
    Option (Resampler α) :=
  cs.foldlM (call m conv) r

end Resampler

def Handed.holds (h : Handed α) (k : ℕ) : Bool := decide (h.start ≤ k ∧ k < h.start + h.frames)

/-- What a call may let the library touch: regions inside the block that cover
every sample of it once, and no more frames than the buffer has. -/
structure Bounded (conv : Converter α σ) (input : List α) (r : Resampler α) : Prop where
  inside : ∀ h ∈ r.handed conv input, 0 ≤ h.start ∧ h.start + h.frames ≤ input.length
  once : ∀ k < input.length, (r.handed conv input).countP (·.holds k) = 1
  frames : r.outputFrameCount ≤ r.outputBuffer.length

namespace Resampler

theorem reduceOption_of_none {l : List (Option (Handed α))} (h : ∀ x ∈ l, x = none) :
    l.reduceOption = [] :=
  List.filterMap_eq_nil_iff.mpr h

theorem handed_eq (input : List α) :
    r.handed conv input =
      if (r.reader conv).asks = true ∧ 0 < r.totalFrames then
        [⟨0, r.totalFrames, input.take r.totalFrames.toNat⟩]
      else [] := by
  rw [handed]
  cases r.reader conv with
  | ret result => rfl
  | ask next =>
    rw [Reader.serve_ask]
    by_cases htotal : 0 < r.totalFrames
    · have hfirst : callback (r.callbackData input) =
          (some ⟨0, r.totalFrames, input.take r.totalFrames.toNat⟩,
            ⟨input, r.totalFrames, r.totalFrames⟩) := by
        simp [callback, callbackData, htotal]
      have hended : callback (⟨input, r.totalFrames, r.totalFrames⟩ : CallbackData α) =
          (none, ⟨input, r.totalFrames, r.totalFrames⟩) := by
        simp [callback]
      have hrest := reduceOption_of_none (Reader.replies_of_fixed hended
        (next (some ⟨0, r.totalFrames, input.take r.totalFrames.toNat⟩)))
      rw [hfirst, List.reduceOption_cons_of_some, hrest]
      simp [Reader.asks, htotal]
    · have hnone : callback (r.callbackData input) = (none, r.callbackData input) := by
        simp [callback, callbackData, not_lt.mp htotal]
      have hrest := reduceOption_of_none (Reader.replies_of_fixed hnone (next none))
      rw [hnone, List.reduceOption_cons_of_none, hrest]
      simp [htotal]

def Sized (r : Resampler α) : Prop := r.outputFrameCount = r.outputBuffer.length

theorem sized_resample (h : r.Sized) (input : List α) : (r.resample conv input).2.Sized := by
  rw [Sized, length_resample_output, ← h, resample]
  split_ifs <;> rfl

section Calls

variable [Zero α] {c : Call α} {cs : List (Call α)}

theorem call_totalFrames (h : r.call m conv c = some r') :
    r'.totalFrames = announce r.totalFrames c := by
  cases c with
  | resample input =>
    cases h
    rw [resample]
    split_ifs <;> rfl
  | setup inputSr outputSr bufferSize =>
    have hdone := Outcome.returned_eq_some.mp h
    rw [announce]
    split_ifs with hsize
    · obtain ⟨_, _, _, _, _, rfl⟩ := (setup_accepted hsize).mp hdone
      rfl
    · rw [setup_rejected hsize] at hdone
      cases hdone
      rfl

theorem calls_totalFrames (h : r.calls m conv cs = some r') :
    r'.totalFrames = cs.foldl announce r.totalFrames := by
  induction cs generalizing r with
  | nil =>
    cases h
    rfl
  | cons c cs ih =>
    obtain ⟨t, ht, h⟩ := Option.bind_eq_some_iff.mp h
    rw [ih h, call_totalFrames ht, List.foldl_cons]

theorem sized_setup {inputSr outputSr : Value} {bufferSize : ℤ} (hsize : 0 < bufferSize)
    (h : r.setup m inputSr outputSr bufferSize = .done r') : r'.Sized := by
  obtain ⟨_, _, _, _, houtput, rfl⟩ := (setup_accepted hsize).mp h
  rw [Sized, length_resize, Int.toNat_of_nonneg houtput.1]

theorem sized_call (h : r.call m conv c = some r') (hr : r.Sized) : r'.Sized := by
  cases c with
  | resample input =>
    cases h
    exact sized_resample hr input
  | setup inputSr outputSr bufferSize =>
    have hdone := Outcome.returned_eq_some.mp h
    by_cases hsize : 0 < bufferSize
    · exact sized_setup hsize hdone
    · rw [setup_rejected hsize] at hdone
      cases hdone
      exact hr

theorem sized_calls (h : r.calls m conv cs = some r')
    (hr : r.Sized ∨ ∃ inputSr outputSr bufferSize,
      Call.setup inputSr outputSr bufferSize ∈ cs ∧ 0 < bufferSize) : r'.Sized := by
  induction cs generalizing r with
  | nil =>
    cases h
    exact hr.resolve_right (by simp)
  | cons c cs ih =>
    obtain ⟨t, ht, h⟩ := Option.bind_eq_some_iff.mp h
    apply ih h
    rcases hr with hr | ⟨inputSr, outputSr, bufferSize, hmem, hsize⟩
    · exact .inl (sized_call ht hr)
    · rcases List.mem_cons.mp hmem with rfl | hmem
      · exact .inl (sized_setup hsize (Outcome.returned_eq_some.mp ht))
      · exact .inr ⟨inputSr, outputSr, bufferSize, hmem, hsize⟩

end Calls

end Resampler

section Bounds

variable [Zero α] {cs : List (Call α)}

/-- After any calls with an accepted setup among them, a block is handed out
within its bounds and once exactly when it has the announced size and the
library asks for input at all. -/
theorem resampler_bounds {r₀ : Resampler α} (hrun : r₀.calls m conv cs = some r)
    (hsetup : ∃ inputSr outputSr bufferSize,
      Call.setup inputSr outputSr bufferSize ∈ cs ∧ 0 < bufferSize) (hinput : input ≠ []) :
    Bounded conv input r ↔
      cs.foldl announce r₀.totalFrames = input.length ∧ (r.reader conv).asks = true := by
  rw [← Resampler.calls_totalFrames hrun]
  have hlen : 0 < input.length := List.length_pos_iff.mpr hinput
  apply Iff.intro
  · intro h
    have hinside := h.inside
    have hlast := h.once (input.length - 1) (by omega)
    rw [Resampler.handed_eq] at hinside hlast
    by_cases hasks : (r.reader conv).asks = true ∧ 0 < r.totalFrames
    · rw [if_pos hasks] at hinside hlast
      have hle : 0 + r.totalFrames ≤ input.length := (hinside _ List.mem_cons_self).2
      have hholds : (0 : ℤ) ≤ (input.length - 1 : ℕ) ∧
          ((input.length - 1 : ℕ) : ℤ) < 0 + r.totalFrames := by
        simpa [List.countP_singleton, Handed.holds] using hlast
      exact ⟨by omega, hasks.1⟩
    · rw [if_neg hasks] at hlast
      cases hlast
  · intro h
    obtain ⟨htotal, hasks⟩ := h
    have hpos : 0 < r.totalFrames := by omega
    have hhanded : r.handed conv input = [⟨0, r.totalFrames, input.take r.totalFrames.toNat⟩] := by
      rw [Resampler.handed_eq, if_pos ⟨hasks, hpos⟩]
    refine ⟨?_, ?_, ?_⟩
    · intro h hmem
      rw [hhanded, List.mem_singleton] at hmem
      subst hmem
      exact ⟨le_rfl, by simp [htotal]⟩
    · intro k hk
      rw [hhanded, List.countP_singleton]
      simp [Handed.holds, htotal, hk]
    · exact (Resampler.sized_calls hrun (.inr hsetup)).le

def copying {α : Type} : Converter α Unit where
  new := ()
  read _ frames _ := .ask fun
    | none => .ret ([], ())
    | some h => .ret (h.samples.take frames.toNat, ())
  length_read := by
    intro ratio frames s cb
    rw [Reader.serve_ask]
    cases (callback cb).1 with
    | none => simp
    | some h => simp

def unset {α : Type} : Resampler α := ⟨0, 0, 0, 0, [], []⟩

theorem resampler_bounds_announced :
    Bounded (α := ℕ) copying [5, 6] ⟨1, 2, 2, 2, [0, 0], [0, 0]⟩ :=
  (resampler_bounds
    (show unset.calls .ieee copying [.setup srBeatnet srBeatnet 2] = some _ by decide +kernel)
    ⟨srBeatnet, srBeatnet, 2, by simp, by decide⟩ (by decide)).mpr (by decide)

/-- After the setup for blocks of two, the library is handed two samples of a block of one. -/
theorem resampler_reads_beyond :
    ¬ ∀ (m : Machine) (cs : List (Call ℕ)) (r₀ r : Resampler ℕ), r₀.calls m copying cs = some r →
      (∃ inputSr outputSr bufferSize,
        Call.setup inputSr outputSr bufferSize ∈ cs ∧ 0 < bufferSize) →
      ∀ input ≠ [], Bounded copying input r := by
  intro h
  have hbounded := h .ieee [.setup srBeatnet srBeatnet 2] unset ⟨1, 2, 2, 2, [0, 0], [0, 0]⟩
    (by decide +kernel) ⟨srBeatnet, srBeatnet, 2, by simp, by decide⟩ [5] (by decide)
  have hinside := hbounded.inside ⟨0, 2, [5]⟩ (by decide)
  exact absurd hinside.2 (by decide)

end Bounds

end BeatNet.Onnx
