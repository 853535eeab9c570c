import BeatNet.Onnx.Regions
import Mathlib.Data.List.Induction

namespace BeatNet.Onnx

open Library.Readers Library.Floats

variable {α σ : Type}

/-- A sample, and the number of the call it was written in. -/
structure Stamped (α : Type) where
  value : α
  call : ℕ
  deriving DecidableEq

instance [Zero α] : Zero (Stamped α) := ⟨⟨0, 0⟩⟩

/-- The converters of the successive calls, which may do something else in every one. What they
write is stamped with the number of the call; calls are counted from one. -/
structure Stamper (α σ : Type) where
  conv : ℕ → Converter (Stamped α) σ
  call_read : ∀ n ratio frames s cb,
    ∀ x ∈ (((conv n).read ratio frames s).serve callback cb).1.1, x.call = n

namespace Resampler

def written (conv : Converter α σ) (input : List α) (r : Resampler α) : List α :=
  ((r.reader conv).serve callback (r.callbackData input)).1.1

theorem length_written_le (conv : Converter α σ) (input : List α) (r : Resampler α) :
    (r.written conv input).length ≤ r.outputFrameCount.toNat :=
  conv.length_read _ _ _ _

variable [Zero α]

def numbered (m : Machine) (stamper : Stamper α σ) (s : ℕ × Resampler (Stamped α)) :
    Call (Stamped α) → Option (ℕ × Resampler (Stamped α))
  | .setup inputSr outputSr bufferSize =>
    (s.2.setup m inputSr outputSr bufferSize).state.map fun r ↦ (s.1, r)
  | .resample input => some (s.1 + 1, (s.2.resample (stamper.conv (s.1 + 1)) input).2)

/-- The calls go on after a setup that throws. -/
def session (m : Machine) (stamper : Stamper α σ) (r : Resampler (Stamped α))
    (cs : List (Call (Stamped α))) : Option (ℕ × Resampler (Stamped α)) :=
  cs.foldlM (numbered m stamper) (0, r)

end Resampler

theorem mem_overwrite {written buffer : List α} {x : α} (h : x ∈ overwrite written buffer) :
    x ∈ written ∨ x ∈ buffer.drop written.length := by
  rcases List.mem_append.mp h with h | h
  · exact .inl (List.mem_of_mem_take h)
  · exact .inr h

theorem mem_resize [Zero α] {n : ℕ} {l : List α} {x : α} (h : x ∈ resize n l) : x ∈ l ∨ x = 0 := by
  rcases List.mem_append.mp h with h | h
  · exact .inl (List.mem_of_mem_take h)
  · exact .inr (List.eq_of_mem_replicate h)

/-- Between the calls the buffer holds samples of earlier calls and zeros, and it has the length
of the request once there is one, unless a setup has thrown. -/
structure Past (n : ℕ) (r : Resampler (Stamped α)) : Prop where
  call_le : ∀ x ∈ r.outputBuffer, x.call ≤ n
  sized : r.outputBuffer = [] ∨ r.Sized ∨ r.outputFrameCount < 0

namespace Past

variable {m : Machine} {stamper : Stamper α σ} {n : ℕ} {r r₀ r' : Resampler (Stamped α)}
  {input : List (Stamped α)} {inputSr outputSr : Value} {bufferSize : ℤ}

theorem resample (h : Past n r) :
    Past (n + 1) (r.resample (stamper.conv (n + 1)) input).2 := by
  refine ⟨fun x hx ↦ ?_, ?_⟩
  · rw [Resampler.resample] at hx
    split_ifs at hx with hinput
    · exact (h.call_le x hx).trans (Nat.le_succ n)
    · rcases mem_overwrite hx with hx | hx
      · exact (stamper.call_read _ _ _ _ _ x hx).le
      · exact (h.call_le x (List.mem_of_mem_drop hx)).trans (Nat.le_succ n)
  · rcases h.sized with hnil | hsized | hnegative
    · left
      rw [← List.length_eq_zero_iff, Resampler.length_resample_output, hnil]
      rfl
    · exact .inr (.inl (Resampler.sized_resample hsized input))
    · right
      right
      rw [Resampler.resample]
      split_ifs
      · exact hnegative
      · exact hnegative

theorem drop_eq_nil_iff (h : Past n r) {k : ℕ} (hk : k ≤ r.outputFrameCount.toNat) :
    r.outputBuffer.drop k = [] ↔ r.outputBuffer = [] ∨ (k : ℤ) = r.outputFrameCount := by
  rw [List.drop_eq_nil_iff, ← List.length_eq_zero_iff]
  rcases h.sized with hempty | hsized | hnegative
  · simp [hempty]
  · have hlen : r.outputFrameCount = r.outputBuffer.length := hsized
    omega
  · omega

variable [Zero α]

theorem setup (hroom : m.Roomy) (h : Past n r)
    (hsetup : (r.setup m inputSr outputSr bufferSize).state = some r') : Past n r' := by
  obtain ⟨_, rfl⟩ | ⟨hsize, hdone⟩ | hthrown := Resampler.setup_cases hsetup
  · exact h
  · have hsized := Resampler.sized_setup hsize hdone
    obtain ⟨_, _, _, _, _, rfl⟩ := (Resampler.setup_accepted hsize).mp hdone
    refine ⟨fun x hx ↦ ?_, .inr (.inl hsized)⟩
    rcases mem_resize hx with hx | rfl
    · exact h.call_le x hx
    · exact Nat.zero_le n
  · obtain ⟨_, count, _, _, hcount, hbuffer, hrefused⟩ := Resampler.setup_thrown hthrown
    have hnegative : count < 0 := by
      by_contra hnonneg
      rcases hrefused with hrefused | hrefused
      · exact hrefused.2 ⟨not_lt.mp hnonneg, .inr (hroom _).1⟩
      · exact hrefused.2 ⟨not_lt.mp hnonneg, .inr (hroom _).2⟩
    exact ⟨hbuffer ▸ h.call_le, .inr (.inr (hcount.trans_lt hnegative))⟩

theorem of_session {cs : List (Call (Stamped α))} (hroom : m.Roomy) (hr : r₀.Constructed)
    (h : r₀.session m stamper cs = some (n, r)) : Past n r := by
  rw [Resampler.session] at h
  induction cs using List.reverseRecOn generalizing n r with
  | nil =>
    cases h
    exact ⟨by simp [hr.outputBuffer], .inl hr.outputBuffer⟩
  | append_singleton cs c ih =>
    rw [List.foldlM_append] at h
    obtain ⟨⟨m, t⟩, ht, h⟩ := Option.bind_eq_some_iff.mp h
    obtain ⟨u, hu, h⟩ := Option.bind_eq_some_iff.mp h
    cases h
    cases c with
    | setup inputSr outputSr bufferSize =>
      obtain ⟨t', ht', hu⟩ := Option.map_eq_some_iff.mp hu
      cases hu
      exact (ih ht).setup hroom ht'
    | resample input =>
      cases hu
      exact (ih ht).resample

end Past

section Origins

variable [Zero α] {m : Machine} {stamper : Stamper α σ} {n : ℕ} {r r₀ : Resampler (Stamped α)}
  {input : List (Stamped α)} {cs : List (Call (Stamped α))}

/-- After any calls, the samples returned for a block were all written during that call exactly
when the library writes as many as it is asked for, or the buffer has no room at all. -/
theorem returned_origin (hroom : m.Roomy) (hr : r₀.Constructed)
    (hrun : r₀.session m stamper cs = some (n, r)) (hinput : input ≠ []) :
    (∀ x ∈ (r.resample (stamper.conv (n + 1)) input).1, x.call = n + 1) ↔
      r.outputBuffer = [] ∨
        ((r.written (stamper.conv (n + 1)) input).length : ℤ) = r.outputFrameCount := by
  have hpast := Past.of_session hroom hr hrun
  have hresult : (r.resample (stamper.conv (n + 1)) input).1 =
      overwrite (r.written (stamper.conv (n + 1)) input) r.outputBuffer := by
    rw [Resampler.resample, if_neg hinput]
    rfl
  rw [hresult, ← hpast.drop_eq_nil_iff (Resampler.length_written_le _ input r)]
  apply Iff.intro
  · intro h
    -- a sample that is left from before carries the number of an earlier call
    rw [List.eq_nil_iff_forall_not_mem]
    intro x hx
    have hnew := h x (List.mem_append_right _ hx)
    have hold := hpast.call_le x (List.mem_of_mem_drop hx)
    omega
  · intro hnil x hx
    rcases mem_overwrite hx with hx | hx
    · exact stamper.call_read _ _ _ _ _ x hx
    · rw [hnil] at hx
      cases hx

def stalling : Stamper ℕ Unit where
  conv n :=
    { new := ()
      read _ frames _ := .ret (if n = 1 then List.replicate frames.toNat ⟨7, n⟩ else [], ())
      length_read := by
        intro ratio frames s cb
        rw [Reader.serve_ret]
        split_ifs <;> simp }
  call_read := by
    intro n ratio frames s cb x hx
    simp only [Reader.serve_ret] at hx
    split_ifs at hx with hn
    · rw [List.eq_of_mem_replicate hx]
    · cases hx

theorem returned_origin_first :
    (Resampler.resample (stalling.conv 1) [⟨5, 0⟩] ⟨1, 1, 1, 1, [0], [0]⟩).1.all (·.call = 1) :=
  List.all_eq_true.mpr fun x hx ↦ decide_eq_true <|
    (returned_origin Machine.exact_roomy (show unset.Constructed from ⟨rfl, rfl⟩)
      (show unset.session .exact stalling [.setup srBeatnet srBeatnet 1] = some (0, _) by decide +kernel)
      (by decide)).mpr (.inr (by decide)) x hx

/-- The second call delivers nothing and returns the sample of the first once more. -/
theorem returned_stale :
    ¬ ∀ (m : Machine) (stamper : Stamper ℕ Unit) (r₀ r : Resampler (Stamped ℕ))
      (cs : List (Call (Stamped ℕ))) (n : ℕ) (input : List (Stamped ℕ)), m.Roomy →
        r₀.Constructed → r₀.session m stamper cs = some (n, r) → input ≠ [] →
          ∀ x ∈ (r.resample (stamper.conv (n + 1)) input).1, x.call = n + 1 := by
  intro h
  have hrun : unset.session .exact stalling [.setup srBeatnet srBeatnet 1, .resample [⟨5, 0⟩]] =
      some (1, ⟨1, 1, 1, 1, [0], [⟨7, 1⟩]⟩) := by decide +kernel
  have hcall := h .exact stalling unset _ _ 1 [⟨6, 0⟩] Machine.exact_roomy ⟨rfl, rfl⟩ hrun
    (by decide) ⟨7, 1⟩ (by decide)
  cases hcall

end Origins

end BeatNet.Onnx
