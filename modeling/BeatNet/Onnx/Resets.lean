import BeatNet.Onnx.FrameProcessor
import Mathlib.Algebra.GroupWithZero.Nat

namespace BeatNet.Onnx

variable {α : Type}

inductive Op (α : Type)
  | process (input : List α)
  | reset

namespace FramedSignalProcessor

variable [Zero α]

def handle : Op α → FramedSignalProcessor α → Option (Option (List α) × FramedSignalProcessor α)
  | .process input, p => p.process input
  | .reset, p => some (none, p.reset)

def after : List (Op α) → FramedSignalProcessor α → Option (FramedSignalProcessor α)
  | [], p => some p
  | op :: ops, p => do
    let out ← handle op p
    after ops out.2

theorem after_snoc (ops : List (Op α)) (op : Op α) (p : FramedSignalProcessor α) :
    after (ops ++ [op]) p = (after ops p).bind fun q ↦ (handle op q).map Prod.snd := by
  induction ops generalizing p with
  | nil =>
    rw [List.nil_append, after, after, Option.bind_some]
    cases handle op p <;> rfl
  | cons op' ops ih =>
    rw [List.cons_append, after, after]
    cases handle op' p with
    | none => rfl
    | some out => exact ih out.2

end FramedSignalProcessor

def FramedSignalProcessor.writeIndices : List α → FramedSignalProcessor α → List ℕ
  | [], _ => []
  | sample :: input, p => p.writePos :: writeIndices input (p.write sample)

theorem FramedSignalProcessor.writeIndices_lt {input : List α} {p : FramedSignalProcessor α} :
    ∀ index ∈ p.writeIndices input, index < p.ringSize := by
  induction input generalizing p with
  | nil => simp [writeIndices]
  | cons sample input ih =>
    exact List.forall_mem_cons.mpr ⟨p.writePos_lt, ih (p := p.write sample)⟩

def hear (stream : List α) : Op α → List α
  | .process input => stream ++ input
  | .reset => []

def heardSince (ops : List (Op α)) : List α := ops.foldl hear []

/-- How many samples have been heard since the last reset, at the end of every block. -/
def counts : ℕ → List (Op α) → List ℕ
  | _, [] => []
  | n, .process input :: ops => (n + input.length) :: counts (n + input.length) ops
  | _, .reset :: ops => counts 0 ops

section Ring

variable [Zero α] {frameSize hopSize : ℕ} {p q : FramedSignalProcessor α} {stream : List α}

theorem Heard.handle {op : Op α} {out : Option (List α) × FramedSignalProcessor α}
    (h : Heard frameSize p stream) (hframe : 0 < frameSize)
    (hop : FramedSignalProcessor.handle op p = some out) : Heard frameSize out.2 (hear stream op) := by
  cases op with
  | process input =>
    rw [FramedSignalProcessor.process_some (h.frameSize.symm ▸ hframe) hop]
    exact (h.processed input).2
  | reset =>
    cases hop
    exact h.reset

theorem Heard.after {ops : List (Op α)} (h : Heard frameSize p stream) (hframe : 0 < frameSize)
    (hq : FramedSignalProcessor.after ops p = some q) :
    Heard frameSize q (ops.foldl hear stream) := by
  induction ops generalizing p stream with
  | nil =>
    cases hq
    exact h
  | cons op ops ih =>
    obtain ⟨out, hout, hlater⟩ := Option.bind_eq_some_iff.mp hq
    exact ih (h.handle hframe hout) hlater

def Placed (p : FramedSignalProcessor α) (frameSize n : ℕ) : Prop :=
  p.frameSize = frameSize ∧ p.totalSamplesWritten = n ∧ p.writePos = n % p.ringSize

theorem after_isSome {n : ℕ} (hframe : 0 < frameSize) (hp : Placed p frameSize n)
    (ops : List (Op α)) :
    (p.after ops).isSome ↔ ∀ m ∈ counts n ops, frameSize ≤ m →
      m % (frameSize * 11 / 10) + frameSize * 11 / 10 ≤ 2147483647 := by
  induction ops generalizing p n with
  | nil => simp [counts, FramedSignalProcessor.after]
  | cons op ops ih =>
    obtain ⟨hsize, htotal, hpos⟩ := hp
    have hring : p.ringSize = frameSize * 11 / 10 := by rw [p.ringSize_eq, hsize]
    cases op with
    | reset => exact ih ⟨hsize, rfl, (Nat.zero_mod _).symm⟩
    | process input =>
      have hnext : Placed (p.processed input).2 frameSize (n + input.length) := by
        refine ⟨(p.processed_frameSize input).trans hsize, ?_, ?_⟩
        · rw [p.processed_total, htotal]
        · rw [p.processed_writePos, p.processed_ringSize, hpos, Nat.mod_add_mod]
      rw [FramedSignalProcessor.after, FramedSignalProcessor.handle, counts, List.forall_mem_cons,
        p.process_eq input (hsize.symm ▸ hframe), hsize, htotal, hpos, Nat.mod_add_mod, hring]
      by_cases hnow : frameSize ≤ n + input.length →
          (n + input.length) % (frameSize * 11 / 10) + frameSize * 11 / 10 ≤ 2147483647
      · rw [if_pos hnow, and_iff_right hnow]
        exact ih hnext
      · rw [if_neg hnow]
        exact iff_of_false (by simp) fun h ↦ hnow h.1

theorem construct_after_isSome (hopSize : ℕ) (hframe : 0 < frameSize) (ops : List (Op α)) :
    ((FramedSignalProcessor.construct frameSize hopSize hframe).bind
        (FramedSignalProcessor.after ops)).isSome ↔ Representable frameSize (counts 0 ops) := by
  rw [FramedSignalProcessor.construct_eq, Representable]
  split_ifs with hring
  · rw [Option.bind_some, and_iff_right hring]
    exact after_isSome hframe ⟨rfl, rfl, (Nat.zero_mod _).symm⟩ ops
  · exact iff_of_false (by simp) fun h ↦ hring h.1

/-- The operations and one more block can be carried out, the block yields a frame exactly when
enough samples have been heard since the last reset, and then the last of them, and no index leaves
the ring. -/
def CarriedOut (frameSize hopSize : ℕ) (hframe : 0 < frameSize) (ops : List (Op α))
    (input : List α) : Prop :=
  ∃ p frame p', (FramedSignalProcessor.construct frameSize hopSize hframe).bind
      (FramedSignalProcessor.after ops) = some p ∧
    p.process input = some (frame, p') ∧
    frame = (if frameSize ≤ (heardSince ops ++ input).length then
      some ((heardSince ops ++ input).rtake frameSize) else none) ∧
    p'.ringSize = frameSize * 11 / 10 ∧ p'.ringBuffer.length = frameSize * 11 / 10 ∧
    p'.writePos < frameSize * 11 / 10 ∧
    (∀ index ∈ p.writeIndices input, index < frameSize * 11 / 10) ∧
    ∀ indices, p'.readIndices = some indices → ∀ index ∈ indices, index < frameSize * 11 / 10

theorem CarriedOut.representable {hframe : 0 < frameSize} {ops : List (Op α)} {input : List α}
    (h : CarriedOut frameSize hopSize hframe ops input) :
    Representable frameSize (counts 0 (ops ++ [.process input])) := by
  obtain ⟨p, frame, p', hp, hout, _⟩ := h
  obtain ⟨p₀, hp₀, hp⟩ := Option.bind_eq_some_iff.mp hp
  rw [← construct_after_isSome (α := α) hopSize hframe, hp₀, Option.bind_some,
    FramedSignalProcessor.after_snoc, hp, Option.bind_some, FramedSignalProcessor.handle, hout]
  rfl

/-- After any operations one more block is answered as it should be, exactly when no sum overflows
in them. -/
theorem ring_buffer (hframe : 0 < frameSize) (ops : List (Op α)) (input : List α) :
    CarriedOut frameSize hopSize hframe ops input ↔
      Representable frameSize (counts 0 (ops ++ [.process input])) := by
  apply Iff.intro CarriedOut.representable
  intro h
  obtain ⟨q, hq⟩ := Option.isSome_iff_exists.mp
    ((construct_after_isSome (α := α) hopSize hframe _).mpr h)
  obtain ⟨p₀, hp₀, hlast⟩ := Option.bind_eq_some_iff.mp hq
  rw [FramedSignalProcessor.after_snoc] at hlast
  obtain ⟨p, hp, hmap⟩ := Option.bind_eq_some_iff.mp hlast
  obtain ⟨⟨frame, p'⟩, hout, rfl⟩ := Option.map_eq_some_iff.mp hmap
  have hnew : p₀ = FramedSignalProcessor.new frameSize hopSize hframe := by
    rw [FramedSignalProcessor.construct_eq, if_pos h.1] at hp₀
    exact (Option.some.inj hp₀).symm
  have hheard : Heard frameSize p (heardSince ops) :=
    Heard.after (hnew ▸ Heard.new hframe) hframe hp
  have hsize : 0 < p.frameSize := hheard.frameSize.symm ▸ hframe
  have hprocessed := FramedSignalProcessor.process_some hsize hout
  obtain ⟨hframe', hheard'⟩ := hheard.processed input
  rw [← hprocessed] at hframe' hheard'
  have hring : p.ringSize = frameSize * 11 / 10 := by rw [p.ringSize_eq, hheard.frameSize]
  have hring' : p'.ringSize = frameSize * 11 / 10 := by rw [p'.ringSize_eq, hheard'.frameSize]
  refine ⟨p, frame, p', Option.bind_eq_some_iff.mpr ⟨p₀, hp₀, hp⟩, hout, hframe', hring', ?_, ?_,
    ?_, ?_⟩
  · exact p'.length_ringBuffer.trans hring'
  · exact p'.writePos_lt.trans_eq hring'
  · exact fun index hindex ↦ (FramedSignalProcessor.writeIndices_lt index hindex).trans_eq hring
  · exact fun indices hindices index hindex ↦
      (FramedSignalProcessor.readIndices_lt hindices index hindex).trans_eq hring'

theorem ring_buffer_reset :
    CarriedOut 2 1 Nat.two_pos [.process [1, 2, 3], .reset, .process [4]] [5, 6] :=
  (ring_buffer Nat.two_pos [.process [1, 2, 3], .reset, .process [4]] [5, 6]).mpr
    (representable_of_le Nat.two_pos (by decide))

theorem CarriedOut.sum_le {hframe : 0 < frameSize} {input : List α}
    (h : CarriedOut frameSize hopSize hframe [] input) (hlen : frameSize ≤ input.length) :
    input.length % (frameSize * 11 / 10) + frameSize * 11 / 10 ≤ 2147483647 :=
  h.representable.2 input.length (by simp [counts]) hlen

/-- The first frame size whose ring is more than half as long as an `int` is large: a block that is
one sample shorter than the ring puts the position on its last place. -/
theorem ring_buffer_overflows :
    ¬ ∀ (frameSize hopSize : ℕ) (hframe : 0 < frameSize) (ops : List (Op ℕ)) (input : List ℕ),
      frameSize ≤ 2147483647 → CarriedOut frameSize hopSize hframe ops input := by
  intro h
  have hsum := (h 976128932 1 (by decide) [] (List.replicate 1073741824 0) (by decide)).sum_le
  rw [List.length_replicate] at hsum
  exact absurd (hsum (by decide)) (by decide)

end Ring

end BeatNet.Onnx
