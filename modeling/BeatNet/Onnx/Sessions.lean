import BeatNet.Onnx.Drift
import BeatNet.Onnx.Preprocess

namespace BeatNet.Onnx

open Library.Machines Library.Floats

variable {K σ : Type} [Field K] [LinearOrder K]

def wired (conv : Converter K σ) (analysis : Analysis K) : Parts (Resampler K) K :=
  { analysis with resample := Resampler.resample conv }

inductive Event (K : Type)
  | setup (sampleRate : Value) (samplesPerBlock : ℤ)
  | preprocess (rawInput : List K)

namespace Tracker

/-- The sample rate is stored as a `float` and handed on from there. -/
def setup (m : Machine) (sampleRate : Value) (samplesPerBlock : ℤ) (b : Tracker (Resampler K) K) :
    Outcome (Tracker (Resampler K) K) :=
  (b.resampler.setup m (sampleRate.map m.float) srBeatnet samplesPerBlock).map fun resampler ↦
    { b with resampler := resampler }

def handle (m : Machine) (conv : Converter K σ) (analysis : Analysis K)
    (b : Tracker (Resampler K) K) : Event K → Option (Tracker (Resampler K) K)
  | .setup sampleRate samplesPerBlock => (b.setup m sampleRate samplesPerBlock).state
  | .preprocess rawInput => some (b.preprocess (wired conv analysis) rawInput).2

/-- The history goes on after a setup that throws. -/
def history (m : Machine) (conv : Converter K σ) (analysis : Analysis K) (r₀ : Resampler K)
    (events : List (Event K)) : Option (Tracker (Resampler K) K) :=
  events.foldlM (handle m conv analysis) (new r₀)

def observe (conv : Converter K σ) (analysis : Analysis K) (rawInput : List K)
    (b : Tracker (Resampler K) K) : Option (List K) × Tracker (Resampler K) K :=
  let out := b.preprocess (wired conv analysis) rawInput
  (if out.1 then some out.2.preprocessedInput else none, out.2)

def heard (b : Tracker (Resampler K) K) : ℕ := b.signalProcessor.totalSamplesWritten

/-- After one and the same accepted setup, the two trackers answer alike on every continuation. -/
def Alike (m : Machine) (conv : Converter K σ) (analysis : Analysis K)
    (b b' : Tracker (Resampler K) K) : Prop :=
  ∀ sampleRate samplesPerBlock t t', 0 < samplesPerBlock →
    b.setup m sampleRate samplesPerBlock = .done t →
      b'.setup m sampleRate samplesPerBlock = .done t' → ∀ raws,
        (trace (observe conv analysis) raws t).1 = (trace (observe conv analysis) raws t').1

structure Untouched (b : Tracker (Resampler K) K) : Prop where
  silence : ∀ x ∈ b.resampler.silence, x = 0
  outputBuffer : ∀ x ∈ b.resampler.outputBuffer, x = 0
  signalProcessor : b.signalProcessor = .new frameLength hopSize frameLength_pos
  prevLogFb : b.prevLogFb = []
  preprocessedInput : b.preprocessedInput = List.replicate fbankSize 0

variable {m : Machine} {conv : Converter K σ} {analysis : Analysis K}
  {b b' t t' : Tracker (Resampler K) K} {r₀ r₀' : Resampler K} {sampleRate : Value}
  {samplesPerBlock : ℤ}

omit [LinearOrder K] in
theorem setup_done :
    b.setup m sampleRate samplesPerBlock = .done t ↔
      ∃ r, b.resampler.setup m (sampleRate.map m.float) srBeatnet samplesPerBlock = .done r ∧
        { b with resampler := r } = t := Outcome.map_eq_done

theorem preprocess_heard (rawInput : List K) :
    (b.preprocess (wired conv analysis) rawInput).2.heard =
      b.heard + (b.resampler.resample conv rawInput).1.length := by
  rw [heard, preprocess_signalProcessor, FramedSignalProcessor.processed_total]
  rfl

theorem preprocess_flag (rawInput : List K) :
    (b.preprocess (wired conv analysis) rawInput).1 =
      decide (frameLength ≤ b.heard + (b.resampler.resample conv rawInput).1.length) := by
  rw [preprocess_isSome, FramedSignalProcessor.processed_isSome, b.frameSize_signalProcessor]
  rfl

omit [LinearOrder K] in
theorem Untouched.new (h : r₀.Constructed) : Untouched (Tracker.new r₀) := by
  refine ⟨?_, ?_, rfl, rfl, rfl⟩
  · simp [Tracker.new, h.silence]
  · simp [Tracker.new, h.outputBuffer]

theorem zeros_resize {α : Type} [Zero α] {n : ℕ} {l : List α} (h : ∀ x ∈ l, x = 0) :
    ∀ x ∈ resize n l, x = 0 := by
  rw [resize_zeros n h]
  exact fun _ ↦ List.eq_of_mem_replicate

omit [LinearOrder K] in
theorem setup_state :
    (b.setup m sampleRate samplesPerBlock).state = some t ↔
      ∃ r, (b.resampler.setup m (sampleRate.map m.float) srBeatnet samplesPerBlock).state = some r ∧
        { b with resampler := r } = t := Outcome.state_map_eq_some

omit [LinearOrder K] in
theorem Untouched.setup (h : Untouched b)
    (hsetup : (b.setup m sampleRate samplesPerBlock).state = some t) : Untouched t := by
  obtain ⟨r, hr, rfl⟩ := setup_state.mp hsetup
  have hzeros : (∀ x ∈ r.silence, x = 0) ∧ ∀ x ∈ r.outputBuffer, x = 0 := by
    obtain ⟨_, rfl⟩ | ⟨hsize, hdone⟩ | hthrown := Resampler.setup_cases hr
    · exact ⟨h.silence, h.outputBuffer⟩
    · obtain ⟨_, _, _, _, _, rfl⟩ := (Resampler.setup_accepted hsize).mp hdone
      exact ⟨zeros_resize h.silence, zeros_resize h.outputBuffer⟩
    · obtain ⟨_, _, _, _, _, hbuffer, hsilence⟩ := Resampler.setup_thrown hthrown
      refine ⟨?_, hbuffer ▸ h.outputBuffer⟩
      rcases hsilence with hsilence | hsilence
      · exact hsilence.1 ▸ h.silence
      · rw [hsilence.1]
        exact zeros_resize h.silence
  exact ⟨hzeros.1, hzeros.2, h.signalProcessor, h.prevLogFb, h.preprocessedInput⟩

theorem Untouched.preprocess (h : Untouched b) {rawInput : List K}
    (hsilent : (b.resampler.resample conv rawInput).1 = []) :
    Untouched (b.preprocess (wired conv analysis) rawInput).2 := by
  have hprocess :
      b.signalProcessor.processed ((wired conv analysis).resample rawInput b.resampler).1 =
        (none, b.signalProcessor) := by
    have hresample : ((wired conv analysis).resample rawInput b.resampler).1 = [] := hsilent
    rw [hresample, h.signalProcessor]
    rfl
  rw [preprocess_none (congrArg Prod.fst hprocess)]
  refine ⟨?_, ?_, ?_, h.prevLogFb, h.preprocessedInput⟩
  · have hkept : (b.resampler.resample conv rawInput).2.silence = b.resampler.silence :=
      Resampler.resample_silence rawInput
    exact fun x hx ↦ h.silence x (hkept ▸ hx)
  · have hbuffer : ∀ x ∈ (b.resampler.resample conv rawInput).2.outputBuffer, x = 0 := by
      have hcases : (b.resampler.resample conv rawInput).2.outputBuffer = b.resampler.outputBuffer ∨
          (b.resampler.resample conv rawInput).2.outputBuffer =
            (b.resampler.resample conv rawInput).1 := Resampler.resample_outputBuffer rawInput
      rcases hcases with heq | heq
      · rw [heq]
        exact h.outputBuffer
      · rw [heq, hsilent]
        simp
    exact hbuffer
  · exact (congrArg Prod.snd hprocess).trans h.signalProcessor

theorem untouched_of_silent {events : List (Event K)} (hr : r₀.Constructed)
    (h : history m conv analysis r₀ events = some b) (hsilent : b.heard = 0) : Untouched b := by
  rw [history] at h
  induction events using List.reverseRecOn generalizing b with
  | nil =>
    cases h
    exact Untouched.new hr
  | append_singleton events event ih =>
    rw [List.foldlM_append] at h
    obtain ⟨t, ht, h⟩ := Option.bind_eq_some_iff.mp h
    obtain ⟨u, hu, h⟩ := Option.bind_eq_some_iff.mp h
    cases h
    cases event with
    | setup sampleRate samplesPerBlock =>
      obtain ⟨r, _, rfl⟩ := setup_state.mp hu
      exact (ih ht hsilent).setup hu
    | preprocess rawInput =>
      cases hu
      rw [preprocess_heard] at hsilent
      have hnone : (t.resampler.resample conv rawInput).1 = [] :=
        List.length_eq_zero_iff.mp (by omega)
      exact (ih ht (by omega)).preprocess hnone

theorem alike_of_untouched (h : Untouched b) (h' : Untouched b') : Alike m conv analysis b b' := by
  intro sampleRate samplesPerBlock t t' hsize ht ht' raws
  obtain ⟨r, hr, rfl⟩ := setup_done.mp ht
  obtain ⟨r', hr', rfl⟩ := setup_done.mp ht'
  obtain ⟨_, _, hrequested, _, _, rfl⟩ := (Resampler.setup_accepted hsize).mp hr
  obtain ⟨_, _, hrequested', _, _, rfl⟩ := (Resampler.setup_accepted hsize).mp hr'
  obtain ⟨rfl, rfl⟩ := hrequested.unique hrequested'
  congr 2
  apply Tracker.ext
  · simp only [resize_zeros _ h.silence, resize_zeros _ h'.silence, resize_zeros _ h.outputBuffer,
      resize_zeros _ h'.outputBuffer]
  · exact h.signalProcessor.trans h'.signalProcessor.symm
  · exact h.prevLogFb.trans h'.prevLogFb.symm
  · exact h.preprocessedInput.trans h'.preprocessedInput.symm

theorem flags_of_unit_blocks (n : ℕ) (hsilence : t.resampler.silence.length = 1)
    (hbuffer : t.resampler.outputBuffer.length = 1) :
    (trace (observe conv analysis) (List.replicate n [0]) t).1.map Option.isSome =
      (List.range n).map fun k ↦ decide (frameLength ≤ t.heard + (k + 1)) := by
  induction n generalizing t with
  | zero => rfl
  | succ n ih =>
    have hone : (t.resampler.resample conv [0]).1.length = 1 :=
      (Resampler.length_resample (hsilence.trans hbuffer.symm) _).trans hbuffer
    have hflag : (t.preprocess (wired conv analysis) [0]).1 =
        decide (frameLength ≤ t.heard + (t.resampler.resample conv [0]).1.length) :=
      preprocess_flag [0]
    have hheard : (t.preprocess (wired conv analysis) [0]).2.heard =
        t.heard + (t.resampler.resample conv [0]).1.length := preprocess_heard [0]
    rw [hone] at hflag hheard
    have hresampler : (t.preprocess (wired conv analysis) [0]).2.resampler =
        (t.resampler.resample conv [0]).2 := preprocess_resampler _ _ _
    have hrest := ih (t := (t.preprocess (wired conv analysis) [0]).2)
      (by rw [hresampler, Resampler.resample_silence, hsilence])
      (by rw [hresampler, Resampler.length_resample_output, hbuffer])
    rw [List.replicate_succ, trace_cons, List.map_cons, observe, hrest, hflag, hheard,
      List.range_succ_eq_map, List.map_cons, List.map_map]
    congr 1
    · by_cases hlen : frameLength ≤ t.heard + 1 <;> simp [hlen]
    · apply List.map_congr_left
      intro k _
      simp only [Function.comp_apply, Nat.succ_eq_add_one, add_assoc, add_comm 1]

omit [LinearOrder K] in
theorem exists_setup_unit (hroom : m.Roomy) (b : Tracker (Resampler K) K) :
    ∃ t, b.setup m srBeatnet 1 = .done t ∧ t.heard = b.heard ∧ t.resampler.silence.length = 1 ∧
      t.resampler.outputBuffer.length = 1 := by
  have hrequested : Resampler.Requested m (m.float srBeatnet) srBeatnet 1 1 1 := by
    have hsr : m.float srBeatnet = .finite srBeatnet := m.float_natCast 22050 (by decide)
    have hone : m.double 1 = .finite 1 := by
      have h := m.double_half 2 (by decide)
      rwa [Nat.cast_ofNat, div_self two_ne_zero] at h
    have hsum : m.double (1 + 1 / 2) = .finite (1 + 1 / 2) := by
      have h := m.double_half 3 (by decide)
      rwa [show ((3 : ℕ) : ℚ) / 2 = 1 + 1 / 2 by norm_num] at h
    have hlong : m.long (1 + 1 / 2) = some 1 := by
      have hcut : toLong (1 + 1 / 2) = 1 := by decide +kernel
      rw [m.long_of_lt _ (by rw [hcut]; decide), hcut]
    have hsize : m.float ((1 : ℤ) : ℚ) = .finite 1 := by
      have h := m.float_natCast 1 (by decide)
      rwa [Nat.cast_one, ← Int.cast_one] at h
    refine ⟨one_pos, ?_, ?_⟩
    · rw [hsr, Value.div_finite srBeatnet_pos.ne', div_self srBeatnet_pos.ne', hone]
    · rw [Resampler.frameCount, hsize]
      simp only [Value.rational, Option.bind_eq_bind, Option.bind_some, one_mul, hone, hsum, hlong]
  exact ⟨_, setup_done.mpr ⟨_, (Resampler.setup_accepted one_pos).mpr ⟨1, 1, hrequested,
    ⟨zero_le_one, .inr (hroom _).1⟩, ⟨zero_le_one, .inr (hroom _).2⟩, rfl⟩, rfl⟩, rfl,
    length_resize _ _, length_resize _ _⟩

theorem heard_of_alike (hroom : m.Roomy) (h : Alike m conv analysis b b') :
    min b.heard (frameLength - 1) = min b'.heard (frameLength - 1) := by
  obtain ⟨t, ht, hheard, hsilence, hbuffer⟩ := exists_setup_unit hroom b
  obtain ⟨t', ht', hheard', hsilence', hbuffer'⟩ := exists_setup_unit hroom b'
  have heq := h srBeatnet 1 t t' one_pos ht ht' (List.replicate frameLength [0])
  have hflags := congrArg (List.map Option.isSome) heq
  rw [flags_of_unit_blocks _ hsilence hbuffer, flags_of_unit_blocks _ hsilence' hbuffer',
    List.map_inj_left, hheard, hheard'] at hflags
  have hiff : ∀ k < frameLength, frameLength ≤ b.heard + (k + 1) ↔
      frameLength ≤ b'.heard + (k + 1) := fun k hk ↦
    decide_eq_decide.mp (hflags k (List.mem_range.mpr hk))
  have hpos := frameLength_pos
  have h₁ := hiff (frameLength - 1 - min b.heard (frameLength - 1)) (by omega)
  have h₂ := hiff (frameLength - 1 - min b'.heard (frameLength - 1)) (by omega)
  omega

end Tracker

section Fresh

variable {m : Machine} {conv : Converter K σ} {analysis : Analysis K}
  {b b' : Tracker (Resampler K) K} {r₀ r₀' : Resampler K} {events events' : List (Event K)}

/-- A setup starts a fresh stream after histories in which no sample has reached
the framing, and never makes another history look like one of these. -/
theorem setup_starts_fresh (hroom : m.Roomy) (hr : r₀.Constructed) (hr' : r₀'.Constructed)
    (h : Tracker.history m conv analysis r₀ events = some b)
    (h' : Tracker.history m conv analysis r₀' events' = some b') :
    (b.heard = 0 → b'.heard = 0 → Tracker.Alike m conv analysis b b') ∧
      (Tracker.Alike m conv analysis b b' → (b.heard = 0 ↔ b'.heard = 0)) := by
  refine ⟨fun hb hb' ↦ ?_, fun halike ↦ ?_⟩
  · exact Tracker.alike_of_untouched (Tracker.untouched_of_silent hr h hb)
      (Tracker.untouched_of_silent hr' h' hb')
  · have hmin := Tracker.heard_of_alike hroom halike
    have hlen : 1 < frameLength := by decide
    omega

def blind : Analysis ℚ where
  computeFft := id
  apply _ := List.replicate (fbankSize / 2) 0
  log10 := id
  length_apply _ := List.length_replicate

theorem unset_constructed : (unset : Resampler ℚ).Constructed := ⟨rfl, rfl⟩

/-- A setup for blocks that become no sample, such a block, and a setup that throws: afterwards it
is as if there had been nothing. -/
theorem setup_starts_fresh_again :
    ∃ b, Tracker.history .exact copying blind unset
        [.setup (96000 : ℚ) 1, .preprocess [5], .setup (-22050 : ℚ) 4] = some b ∧
      Tracker.Alike .exact copying blind b (Tracker.new unset) := by
  let r : Resampler ℚ := ⟨22050 / 96000, 1, 0, 1, [], []⟩
  let t : Tracker (Resampler ℚ) ℚ := ((Tracker.new r).preprocess (wired copying blind) [5]).2
  have hresample : r.resample copying [5] = ([], r) := by decide +kernel
  have ht : t.resampler = r :=
    (Tracker.preprocess_resampler _ _ _).trans (congrArg Prod.snd hresample)
  have hheard : t.heard = 0 := (Tracker.preprocess_heard [5]).trans (by
    have hnone : ((Tracker.new r : Tracker _ ℚ).resampler.resample copying [5]).1 = [] :=
      congrArg Prod.fst hresample
    rw [hnone]
    rfl)
  have hfirst : Tracker.handle .exact copying blind (Tracker.new unset) (.setup (96000 : ℚ) 1) =
      some (Tracker.new r) := Tracker.setup_state.mpr ⟨r, by decide +kernel, rfl⟩
  let u : Tracker (Resampler ℚ) ℚ :=
    { t with resampler := { r with ratio := -1, bufferSize := 4, outputFrameCount := -3 } }
  have hthrown : Tracker.handle .exact copying blind t (.setup (-22050 : ℚ) 4) = some u :=
    Tracker.setup_state.mpr ⟨_, by rw [ht]; decide +kernel, rfl⟩
  have hrun : Tracker.history .exact copying blind unset
      [.setup (96000 : ℚ) 1, .preprocess [5], .setup (-22050 : ℚ) 4] = some u := by
    rw [Tracker.history, List.foldlM_cons, hfirst]
    exact (congrArg (Option.bind · some) hthrown :
      (Tracker.handle .exact copying blind t (.setup (-22050 : ℚ) 4)).bind some = some u)
  have hnone : Tracker.history .exact copying blind unset [] = some (Tracker.new unset) := rfl
  exact ⟨u, hrun, (setup_starts_fresh Machine.exact_roomy unset_constructed unset_constructed hrun
    hnone).1 hheard rfl⟩

/-- One sample heard before the setup brings every later frame forward by one. -/
theorem setup_keeps_samples :
    ¬ ∀ (m : Machine) (r₀ : Resampler ℚ) (events events' : List (Event ℚ))
      (b b' : Tracker (Resampler ℚ) ℚ), m.Roomy → r₀.Constructed →
        Tracker.history m copying blind r₀ events = some b →
          Tracker.history m copying blind r₀ events' = some b' →
            Tracker.Alike m copying blind b b' := by
  intro h
  let b : Tracker (Resampler ℚ) ℚ := Tracker.new ⟨1, 1, 1, 1, [0], [0]⟩
  have hb : (b.preprocess (wired copying blind) [0]).2.heard = 1 := by
    rw [Tracker.preprocess_heard, Resampler.length_resample rfl]
    rfl
  have hrun : Tracker.history .exact copying blind unset [.setup srBeatnet 1, .preprocess [0]] =
      some (b.preprocess (wired copying blind) [0]).2 :=
    Option.bind_eq_some_iff.mpr
      ⟨b, Tracker.setup_state.mpr ⟨⟨1, 1, 1, 1, [0], [0]⟩, by decide +kernel, rfl⟩, rfl⟩
  have halike := h .exact unset _ [] _ _ Machine.exact_roomy unset_constructed hrun rfl
  have hmin := Tracker.heard_of_alike Machine.exact_roomy halike
  rw [hb] at hmin
  revert hmin
  decide

end Fresh

end BeatNet.Onnx
