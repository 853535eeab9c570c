import BeatNet.Onnx.Sessions

namespace BeatNet.Onnx

open Library.Floats

variable {K : Type} [Field K]

namespace Resampler

structure Configured {α : Type} (m : Machine) (inputSr : Value) (size : ℤ) (r : Resampler α) :
    Prop where
  ratio : Value.div m.double srBeatnet inputSr = .finite r.ratio
  ratio_pos : 0 < r.ratio
  bufferSize : r.bufferSize = size
  totalFrames : r.totalFrames = size
  outputFrameCount : r.outputFrameCount = round (size * r.ratio)
  silence : r.silence.length = r.outputFrameCount.toNat
  outputBuffer : r.outputBuffer.length = r.outputFrameCount.toNat

end Resampler

/-- A tracker with the arguments that its last `setup` stored. -/
structure Instance (K : Type) extends Tracker (Resampler K) K where
  SR : Value
  bufferSize : ℤ

namespace Instance

def new (r₀ : Resampler K) : Instance K :=
  { Tracker.new r₀ with SR := (0 : ℚ), bufferSize := 0 }

def setup (m : Machine) (sampleRate : Value) (samplesPerBlock : ℤ) (b : Instance K) :
    Outcome (Instance K) :=
  let stored := { b with SR := sampleRate.map m.float, bufferSize := samplesPerBlock }
  (b.resampler.setup m stored.SR srBeatnet stored.bufferSize).map fun resampler ↦
    { stored with resampler := resampler }

def session (m : Machine) (calls : List (Value × ℤ)) (b : Instance K) : Option (Instance K) :=
  calls.foldlM (fun b call ↦ (b.setup m call.1 call.2).state) b

/-- The property holds of every call, in the state that the call finds. -/
def Throughout (m : Machine) (P : Instance K → Value × ℤ → Prop) :
    List (Value × ℤ) → Instance K → Prop
  | [], _ => True
  | call :: calls, b =>
    P b call ∧ ∀ s, (b.setup m call.1 call.2).state = some s → Throughout m P calls s

structure Configured (m : Machine) (sampleRate : Value) (samplesPerBlock : ℤ) (b : Instance K) :
    Prop where
  SR : b.SR = sampleRate.map m.float
  bufferSize : b.bufferSize = samplesPerBlock
  resampler : b.resampler.Configured m (sampleRate.map m.float) samplesPerBlock

def AllOrNothing (m : Machine) (b : Instance K) (call : Value × ℤ) : Prop :=
  ∃ s, (b.setup m call.1 call.2).state = some s ∧ (s.Configured m call.1 call.2 ∨ s = b)

/-- The roundings of the size, of the product and of the sum with a half together do not carry it
over an integer, and it can be cast. -/
def Counts (m : Machine) (size : ℤ) (ratio : ℚ) : Prop :=
  ∃ x product sum, m.float size = .finite x ∧ m.double (x * ratio) = .finite product ∧
    m.double (product + 1 / 2) = .finite sum ∧ round (size * ratio) ≤ sum ∧
    sum < round (size * ratio) + 1 ∧ (m.long sum).isSome

/-- The ratio for the rate is positive and finite, the count of frames is the nearest integer, and
there is room for that many. -/
def Valid (m : Machine) (b : Instance K) (call : Value × ℤ) : Prop :=
  0 < call.2 ∧ ∃ ratio, Value.div m.double srBeatnet (call.1.map m.float) = .finite ratio ∧
    0 < ratio ∧ Counts m call.2 ratio ∧
    Resizes m.silenceFits (round (call.2 * ratio)) b.resampler.silence ∧
    Resizes m.outputFits (round (call.2 * ratio)) b.resampler.outputBuffer

/-- The call is valid, or the resampler rejects it and it tells nothing new. -/
def Harmless (m : Machine) (b : Instance K) (call : Value × ℤ) : Prop :=
  Valid m b call ∨ call.2 ≤ 0 ∧
    (b.SR = call.1.map m.float ∧ b.bufferSize = call.2 ∨
      b.resampler.Configured m (call.1.map m.float) call.2)

end Instance

section Counts

variable {m : Machine} {size : ℤ} {ratio : ℚ}

theorem counts_iff (hsize : 0 ≤ size) (hratio : 0 ≤ ratio) :
    Instance.Counts m size ratio ↔
      Resampler.frameCount m size ratio = some (round (size * ratio)) := by
  have hround : 0 ≤ round (size * ratio) := by
    have hproduct : 0 ≤ size * ratio := mul_nonneg (Int.cast_nonneg hsize) hratio
    rw [round_eq]
    exact Int.floor_nonneg.mpr (by linarith)
  rw [Resampler.frameCount]
  simp only [Option.bind_eq_bind, Option.bind_eq_some_iff, Value.rational_eq_some]
  apply Iff.intro
  · rintro ⟨x, product, sum, hx, hproduct, hsum, hle, hlt, hcast⟩
    refine ⟨x, hx, product, hproduct, sum, hsum, ?_⟩
    obtain ⟨n, hn⟩ := Option.isSome_iff_exists.mp hcast
    have hnonneg : 0 ≤ sum := (Int.cast_nonneg hround).trans hle
    rw [hn, m.toLong_of_long _ _ hn, toLong_of_nonneg hnonneg, Int.floor_eq_iff.mpr ⟨hle, hlt⟩]
  · rintro ⟨x, hx, product, hproduct, sum, hsum, hcast⟩
    have hx' := m.float_nonneg _ _ (Int.cast_nonneg hsize) hx
    have hproduct' := m.double_nonneg _ _ (mul_nonneg hx' hratio) hproduct
    have hsum' := m.double_nonneg _ _ (by linarith) hsum
    have hfloor := m.toLong_of_long _ _ hcast
    rw [toLong_of_nonneg hsum', eq_comm, Int.floor_eq_iff] at hfloor
    exact ⟨x, product, sum, hx, hproduct, hsum, hfloor.1, hfloor.2, by rw [hcast]; rfl⟩

-- The quotient and the product of doubles come out below 220.5, which they are without rounding.
example : (Value.div Machine.ieee.double srBeatnet (44000 : ℚ)).rational.bind
      (Resampler.frameCount .ieee 440) = some 220 ∧
    Resampler.frameCount .exact 440 (srBeatnet / 44000) = some 221 := by
  decide +kernel

end Counts

namespace Instance

variable {m : Machine} {b s : Instance K} {sampleRate : Value} {samplesPerBlock : ℤ}
  {call : Value × ℤ} {calls before : List (Value × ℤ)}

theorem setup_state :
    (b.setup m sampleRate samplesPerBlock).state = some s ↔
      ∃ r, (b.resampler.setup m (sampleRate.map m.float) srBeatnet samplesPerBlock).state = some r ∧
        { b with SR := sampleRate.map m.float, bufferSize := samplesPerBlock, resampler := r } =
          s := Outcome.state_map_eq_some

/-- But for what is stored besides, this is the setup of the tracker. -/
theorem setup_tracker :
    (b.setup m sampleRate samplesPerBlock).map toTracker =
      b.toTracker.setup m sampleRate samplesPerBlock := by
  rw [setup, Tracker.setup]
  cases b.resampler.setup m (sampleRate.map m.float) srBeatnet samplesPerBlock <;> rfl

theorem setup_rejected (h : samplesPerBlock ≤ 0) : b.setup m sampleRate samplesPerBlock =
    .done { b with SR := sampleRate.map m.float, bufferSize := samplesPerBlock } := by
  rw [setup, Resampler.setup_rejected (not_lt.mpr h)]
  rfl

theorem Valid.setup (h : Valid m b call) :
    ∃ s, b.setup m call.1 call.2 = .done s ∧ s.Configured m call.1 call.2 := by
  obtain ⟨hsize, ratio, hquotient, hpos, hcounts, hsilence, houtput⟩ := h
  have hrequested : Resampler.Requested m (call.1.map m.float) srBeatnet call.2 ratio
      (round (call.2 * ratio)) := ⟨hsize, hquotient, (counts_iff hsize.le hpos.le).mp hcounts⟩
  have hdone := (Resampler.setup_accepted (r := b.resampler) hsize).mpr
    ⟨ratio, _, hrequested, hsilence, houtput, rfl⟩
  rw [Instance.setup, hdone]
  exact ⟨_, rfl, rfl, rfl, hquotient, hpos, rfl, rfl, rfl, length_resize _ _, length_resize _ _⟩

omit [Field K] in
theorem Configured.self (h : b.Configured m sampleRate samplesPerBlock) :
    b.resampler.Configured m b.SR b.bufferSize := by
  rw [h.SR, h.bufferSize]
  exact h.resampler

def Settled (m : Machine) (b : Instance K) : Prop :=
  b.bufferSize = 0 ∨ b.resampler.Configured m b.SR b.bufferSize

theorem Settled.of_allOrNothing (h : Settled m b) (hcall : AllOrNothing m b call)
    (hs : (b.setup m call.1 call.2).state = some s) : Settled m s := by
  obtain ⟨t, ht, hcases⟩ := hcall
  cases ht.symm.trans hs
  rcases hcases with hnew | rfl
  · exact .inr hnew.self
  · exact h

theorem Settled.configured (h : Settled m b) (hsize : 0 < call.2)
    (hs : (b.setup m call.1 call.2).state = some s)
    (hcases : s.Configured m call.1 call.2 ∨ s = b) : s.Configured m call.1 call.2 := by
  rcases hcases with hnew | hsame
  · exact hnew
  · obtain ⟨r, hr, hsr⟩ := setup_state.mp hs
    have hSR : b.SR = call.1.map m.float := by rw [← hsame, ← hsr]
    have hbuffer : b.bufferSize = call.2 := by rw [← hsame, ← hsr]
    rw [hsame]
    rcases h with h | h
    · exact absurd (hbuffer.symm.trans h) hsize.ne'
    · rw [hSR, hbuffer] at h
      exact ⟨hSR, hbuffer, h⟩

theorem Configured.valid (h : s.Configured m call.1 call.2) (hsize : 0 < call.2)
    (hs : (b.setup m call.1 call.2).state = some s) : Valid m b call := by
  obtain ⟨r, hr, rfl⟩ := setup_state.mp hs
  have hconfigured : r.Configured m (call.1.map m.float) call.2 := h.resampler
  obtain ⟨hle, _⟩ | ⟨_, hdone⟩ | hthrown := Resampler.setup_cases hr
  · exact absurd hsize hle.not_gt
  · obtain ⟨ratio, count, hrequested, hsilence, houtput, rfl⟩ :=
      (Resampler.setup_accepted hsize).mp hdone
    have hpos : 0 < ratio := hconfigured.ratio_pos
    have hcount : count = round (call.2 * ratio) := hconfigured.outputFrameCount
    subst hcount
    exact ⟨hsize, ratio, hrequested.quotient, hpos, (counts_iff hsize.le hpos.le).mpr
      hrequested.cast, hsilence, houtput⟩
  · obtain ⟨_, count, _, _, hcount, hbuffer, hrefused⟩ := Resampler.setup_thrown hthrown
    have hnonneg : 0 ≤ count := by
      have hproduct : 0 ≤ call.2 * r.ratio :=
        mul_nonneg (Int.cast_nonneg hsize.le) hconfigured.ratio_pos.le
      rw [← hcount, hconfigured.outputFrameCount, round_eq]
      exact Int.floor_nonneg.mpr (by linarith)
    -- vectors that are already as long as the count are not what the call throws for
    exfalso
    rcases hrefused with ⟨hkept, hrefused⟩ | ⟨_, hrefused⟩
    · refine hrefused ⟨hnonneg, .inl ?_⟩
      rw [← hkept, hconfigured.silence, hcount, Int.toNat_of_nonneg hnonneg]
    · refine hrefused ⟨hnonneg, .inl ?_⟩
      rw [← hbuffer, hconfigured.outputBuffer, hcount, Int.toNat_of_nonneg hnonneg]

theorem Settled.allOrNothing_iff (h : Settled m b) :
    AllOrNothing m b call ↔ Harmless m b call := by
  obtain ⟨sampleRate, samplesPerBlock⟩ := call
  apply Iff.intro
  · intro ⟨s, hs, hcases⟩
    rcases le_or_gt samplesPerBlock 0 with hsize | hsize
    · rw [setup_rejected hsize] at hs
      cases hs
      refine .inr ⟨hsize, ?_⟩
      rcases hcases with hnew | hsame
      · exact .inr hnew.resampler
      · exact .inl ⟨congrArg SR hsame.symm, congrArg bufferSize hsame.symm⟩
    · exact .inl ((h.configured hsize hs hcases).valid hsize hs)
  · intro hcases
    rcases hcases with hvalid | ⟨hsize, hsame | hconfigured⟩
    · obtain ⟨s, hs, hconfigured⟩ := hvalid.setup
      exact ⟨s, congrArg Outcome.state hs, .inl hconfigured⟩
    · obtain ⟨hSR, hbuffer⟩ := hsame
      refine ⟨b, ?_, .inr rfl⟩
      rw [setup_rejected hsize, ← hSR, ← hbuffer]
      rfl
    · exact ⟨_, congrArg Outcome.state (setup_rejected hsize), .inl ⟨rfl, rfl, hconfigured⟩⟩

theorem Settled.throughout_iff (h : Settled m b) :
    Throughout m (AllOrNothing m) calls b ↔ Throughout m (Harmless m) calls b := by
  induction calls generalizing b with
  | nil => rfl
  | cons call calls ih =>
    rw [Throughout, Throughout, h.allOrNothing_iff, and_congr_right_iff]
    intro hcall
    have hsettled : ∀ s, (b.setup m call.1 call.2).state = some s → Settled m s := fun s hs ↦
      h.of_allOrNothing (h.allOrNothing_iff.mpr hcall) hs
    exact ⟨fun hrest s hs ↦ (ih (hsettled s hs)).mp (hrest s hs),
      fun hrest s hs ↦ (ih (hsettled s hs)).mpr (hrest s hs)⟩

theorem Settled.exists_session (h : Settled m b) (hcalls : Throughout m (AllOrNothing m) calls b)
    (hsome : b.resampler.Configured m b.SR b.bufferSize ∨ ∃ call ∈ calls, 0 < call.2) :
    ∃ s, session m calls b = some s ∧ s.resampler.Configured m s.SR s.bufferSize := by
  induction calls generalizing b with
  | nil => exact ⟨b, rfl, hsome.resolve_right (by simp)⟩
  | cons call calls ih =>
    obtain ⟨⟨s, hs, hcases⟩, hrest⟩ := hcalls
    have hsession : session m (call :: calls) b = session m calls s := by
      rw [session, List.foldlM_cons, hs]
      rfl
    rw [hsession]
    refine ih (h.of_allOrNothing ⟨s, hs, hcases⟩ hs) (hrest s hs) ?_
    rcases hsome with hconfigured | ⟨other, hmem, hother⟩
    · left
      rcases hcases with hnew | rfl
      · exact hnew.self
      · exact hconfigured
    · rcases List.mem_cons.mp hmem with rfl | hmem
      · exact .inl (h.configured hother hs hcases).self
      · exact .inr ⟨other, hmem, hother⟩

theorem throughout_append {P : Instance K → Value × ℤ → Prop} {after : List (Value × ℤ)}
    (h : Throughout m P (before ++ after) b) : Throughout m P before b := by
  induction before generalizing b with
  | nil => trivial
  | cons call before ih => exact ⟨h.1, fun s hs ↦ ih (h.2 s hs)⟩

theorem settled_new (r₀ : Resampler K) : Settled m (new r₀) := .inl rfl

/-- All calls of a run are all or nothing just when all are harmless, and then the resampler works
with the stored arguments after every call from the first one on that is not rejected. -/
theorem setup_all_or_nothing (m : Machine) (r₀ : Resampler K) (calls : List (Value × ℤ)) :
    (Throughout m (AllOrNothing m) calls (new r₀) ↔ Throughout m (Harmless m) calls (new r₀)) ∧
      (Throughout m (Harmless m) calls (new r₀) →
        ∀ before, before <+: calls → (∃ call ∈ before, 0 < call.2) →
          ∃ b, session m before (new r₀) = some b ∧ 0 < b.resampler.ratio ∧
            Value.div m.double srBeatnet b.SR = .finite b.resampler.ratio ∧
            b.resampler.totalFrames = b.bufferSize ∧
            b.resampler.outputFrameCount = round (b.bufferSize * b.resampler.ratio)) := by
  have hnew : Settled m (new r₀) := settled_new r₀
  refine ⟨hnew.throughout_iff, fun hcalls before hbefore hsome ↦ ?_⟩
  obtain ⟨after, rfl⟩ := hbefore
  have hharmless := throughout_append (hnew.throughout_iff.mpr hcalls)
  obtain ⟨b, hb, hconfigured⟩ := hnew.exists_session hharmless (.inr hsome)
  exact ⟨b, hb, hconfigured.ratio_pos, hconfigured.ratio, hconfigured.totalFrames,
    hconfigured.outputFrameCount⟩

/-- The resampler rejects the second call, and the arguments are stored all the same. -/
theorem setup_half_stored :
    ¬ ∀ (m : Machine) (r₀ : Resampler ℚ) (calls : List (Value × ℤ)),
      Throughout m (AllOrNothing m) calls (new r₀) := by
  intro h
  have hcalls := h .ieee unset [((1 : ℚ), 1), ((0 : ℚ), 0)]
  have hround : round (((1 : ℤ) : ℚ) * 22050) = 22050 := by decide +kernel
  have hvalid : Valid .ieee (new (K := ℚ) unset) ((1 : ℚ), 1) := by
    refine ⟨one_pos, 22050, by decide +kernel, by norm_num, ?_, ?_, ?_⟩
    · exact (counts_iff zero_le_one (by norm_num)).mpr (by decide +kernel)
    · rw [hround]
      exact ⟨by decide, .inr (by decide)⟩
    · rw [hround]
      exact ⟨by decide, .inr (by decide)⟩
  obtain ⟨s, hs, hs'⟩ := hvalid.setup
  obtain ⟨t, ht, hcases⟩ := (hcalls.2 s (congrArg Outcome.state hs)).1
  rw [setup_rejected le_rfl] at ht
  cases ht
  rcases hcases with hnew | hsame
  · -- the block size of the resampler is still that of the first call
    have htotal := hnew.resampler.totalFrames
    exact absurd (hs'.resampler.totalFrames.symm.trans htotal) (by decide)
  · have hbuffer : s.bufferSize = 0 := congrArg bufferSize hsame.symm
    exact absurd (hs'.bufferSize.symm.trans hbuffer) (by decide)

end Instance

end BeatNet.Onnx
