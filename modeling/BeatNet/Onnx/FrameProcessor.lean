import BeatNet.Library.Rings
import BeatNet.Library.Machines

namespace BeatNet.Onnx

open Library.Rings Library.Machines

variable {α : Type}

/-- `int` arithmetic: a result that is not an `int` is undefined. -/
def int (n : ℤ) : Option ℤ := if -2147483648 ≤ n ∧ n ≤ 2147483647 then some n else none

/-- `total_samples_written` counts without a bound. The hop size is stored and read nowhere. -/
structure FramedSignalProcessor (α : Type) where
  frameSize : ℕ
  hopSize : ℕ
  ringSize : ℕ
  writePos : ℕ
  totalSamplesWritten : ℕ
  ringBuffer : List α
  length_ringBuffer : ringBuffer.length = ringSize
  writePos_lt : writePos < ringSize
  ringSize_eq : ringSize = frameSize * 11 / 10

namespace FramedSignalProcessor

def new [Zero α] (frameSize hopSize : ℕ) (h : 0 < frameSize) : FramedSignalProcessor α where
  frameSize := frameSize
  hopSize := hopSize
  -- `frame_size*1.1`, truncated
  ringSize := frameSize * 11 / 10
  writePos := 0
  totalSamplesWritten := 0
  ringBuffer := List.replicate (frameSize * 11 / 10) 0
  length_ringBuffer := List.length_replicate
  writePos_lt := by omega
  ringSize_eq := rfl

def construct [Zero α] (frameSize hopSize : ℕ) (h : 0 < frameSize) :
    Option (FramedSignalProcessor α) :=
  (int (frameSize * 11 / 10 : ℕ)).map fun _ ↦ new frameSize hopSize h

def reset [Zero α] (p : FramedSignalProcessor α) : FramedSignalProcessor α where
  frameSize := p.frameSize
  hopSize := p.hopSize
  ringSize := p.ringSize
  writePos := 0
  totalSamplesWritten := 0
  ringBuffer := List.replicate p.ringSize 0
  length_ringBuffer := List.length_replicate
  writePos_lt := p.writePos.zero_le.trans_lt p.writePos_lt
  ringSize_eq := p.ringSize_eq

def write (p : FramedSignalProcessor α) (sample : α) : FramedSignalProcessor α where
  frameSize := p.frameSize
  hopSize := p.hopSize
  ringSize := p.ringSize
  writePos := (p.writePos + 1) % p.ringSize
  totalSamplesWritten := p.totalSamplesWritten + 1
  ringBuffer := p.ringBuffer.set p.writePos sample
  length_ringBuffer := List.length_set.trans p.length_ringBuffer
  writePos_lt := next_lt p.writePos_lt
  ringSize_eq := p.ringSize_eq

/-- `(write_pos + ring_size - frame_size + i) % ring_size`, from left to right. -/
def index (p : FramedSignalProcessor α) (i : ℕ) : Option ℕ := do
  let top ← int (p.writePos + p.ringSize)
  let start ← int (top - p.frameSize)
  let place ← int (start + i)
  return (place.tmod p.ringSize).toNat

def readIndices (p : FramedSignalProcessor α) : Option (List ℕ) :=
  (List.range p.frameSize).mapM p.index

def frame [Zero α] (p : FramedSignalProcessor α) : Option (List α) := do
  let indices ← p.readIndices
  return indices.map fun index ↦ p.ringBuffer.getD index 0

/-- `process`, with the frame when it returns true. -/
def process [Zero α] (input : List α) (p : FramedSignalProcessor α) :
    Option (Option (List α) × FramedSignalProcessor α) :=
  let p' := input.foldl write p
  if p'.frameSize ≤ p'.totalSamplesWritten then do
    let frame ← p'.frame
    return (some frame, p')
  else return (none, p')

def processed [Zero α] (input : List α) (p : FramedSignalProcessor α) :
    Option (List α) × FramedSignalProcessor α :=
  let p' := input.foldl write p
  (if p'.frameSize ≤ p'.totalSamplesWritten then
    some ((List.range p'.frameSize).map fun i ↦
      p'.ringBuffer.getD ((p'.writePos + p'.ringSize - p'.frameSize + i) % p'.ringSize) 0)
  else none, p')

theorem frameSize_le (p : FramedSignalProcessor α) : p.frameSize ≤ p.ringSize := by
  have hring := p.ringSize_eq
  omega

def Fits (p : FramedSignalProcessor α) : Prop := p.writePos + p.ringSize ≤ 2147483647

theorem int_of_le {n : ℕ} (h : n ≤ 2147483647) : int n = some (n : ℤ) := by
  rw [int, if_pos]
  omega

theorem int_of_lt {n : ℕ} (h : 2147483647 < n) : int n = none := by
  rw [int, if_neg]
  omega

theorem construct_eq [Zero α] {frameSize hopSize : ℕ} (h : 0 < frameSize) :
    construct (α := α) frameSize hopSize h =
      if frameSize * 11 / 10 ≤ 2147483647 then some (new frameSize hopSize h) else none := by
  rw [construct]
  split_ifs with hring
  · rw [int_of_le hring]
    rfl
  · rw [int_of_lt (not_le.mp hring)]
    rfl

theorem index_eq {p : FramedSignalProcessor α} (h : p.Fits) {i : ℕ} (hi : i < p.frameSize) :
    p.index i = some ((p.writePos + p.ringSize - p.frameSize + i) % p.ringSize) := by
  have hle := p.frameSize_le
  rw [Fits] at h
  have htop : int (p.writePos + p.ringSize : ℤ) = some ((p.writePos + p.ringSize : ℕ) : ℤ) :=
    int_of_le h
  have hstart : int (((p.writePos + p.ringSize : ℕ) : ℤ) - p.frameSize) =
      some ((p.writePos + p.ringSize - p.frameSize : ℕ) : ℤ) := by
    rw [← Int.ofNat_sub (by omega)]
    exact int_of_le (by omega)
  have hplace : int (((p.writePos + p.ringSize - p.frameSize : ℕ) : ℤ) + i) =
      some ((p.writePos + p.ringSize - p.frameSize + i : ℕ) : ℤ) :=
    int_of_le (by omega)
  simp only [index, htop, hstart, hplace, Option.bind_eq_bind, Option.bind_some, Option.pure_def]
  rw [← Int.ofNat_tmod, Int.toNat_natCast]

theorem index_none {p : FramedSignalProcessor α} (h : ¬ p.Fits) (i : ℕ) : p.index i = none := by
  have htop : int (p.writePos + p.ringSize : ℤ) = none := int_of_lt (not_le.mp h)
  simp only [index, htop, Option.bind_eq_bind, Option.bind_none]

theorem readIndices_eq {p : FramedSignalProcessor α} (h : p.Fits) :
    p.readIndices = some ((List.range p.frameSize).map fun i ↦
      (p.writePos + p.ringSize - p.frameSize + i) % p.ringSize) := by
  have hall : ∀ is : List ℕ, (∀ i ∈ is, i < p.frameSize) → is.mapM p.index =
      some (is.map fun i ↦ (p.writePos + p.ringSize - p.frameSize + i) % p.ringSize) := by
    intro is his
    induction is with
    | nil => rfl
    | cons i is ih =>
      obtain ⟨hi, his⟩ := List.forall_mem_cons.mp his
      rw [List.mapM_cons, index_eq h hi, ih his]
      rfl
  exact hall _ fun i ↦ List.mem_range.mp

theorem readIndices_none {p : FramedSignalProcessor α} (h : ¬ p.Fits) (hsize : 0 < p.frameSize) :
    p.readIndices = none := by
  obtain ⟨n, hn⟩ := Nat.exists_eq_add_of_le' hsize
  rw [readIndices, hn, List.range_succ_eq_map, List.mapM_cons, index_none h]
  rfl

theorem readIndices_lt {p : FramedSignalProcessor α} {indices : List ℕ}
    (h : p.readIndices = some indices) : ∀ index ∈ indices, index < p.ringSize := by
  by_cases hfits : p.Fits
  · rw [readIndices_eq hfits, Option.some.injEq] at h
    subst h
    intro index hindex
    obtain ⟨i, _, rfl⟩ := List.mem_map.mp hindex
    exact Nat.mod_lt _ (p.writePos.zero_le.trans_lt p.writePos_lt)
  · -- no index is computed, or none at all is asked for
    rcases Nat.eq_zero_or_pos p.frameSize with hzero | hsize
    · rw [readIndices, hzero] at h
      cases h
      intro index hindex
      cases hindex
    · rw [readIndices_none hfits hsize] at h
      cases h

theorem foldl_write (input : List α) (p : FramedSignalProcessor α) :
    (input.foldl write p).frameSize = p.frameSize ∧
      (input.foldl write p).totalSamplesWritten = p.totalSamplesWritten + input.length ∧
      (input.foldl write p).writePos = (p.writePos + input.length) % p.ringSize := by
  induction input generalizing p with
  | nil => exact ⟨rfl, rfl, (Nat.mod_eq_of_lt p.writePos_lt).symm⟩
  | cons sample input ih =>
    obtain ⟨hsize, htotal, hpos⟩ := ih (p.write sample)
    have hwrite : (p.write sample).totalSamplesWritten = p.totalSamplesWritten + 1 := rfl
    have hnext : (p.write sample).writePos = (p.writePos + 1) % p.ringSize := rfl
    have hring : (p.write sample).ringSize = p.ringSize := rfl
    refine ⟨hsize, ?_, ?_⟩
    · rw [List.foldl_cons, htotal, hwrite, List.length_cons]
      omega
    · rw [List.foldl_cons, hpos, hnext, hring, List.length_cons, Nat.mod_add_mod]
      congr 1
      omega

theorem processed_frameSize [Zero α] (input : List α) (p : FramedSignalProcessor α) :
    (p.processed input).2.frameSize = p.frameSize := (foldl_write input p).1

theorem processed_total [Zero α] (input : List α) (p : FramedSignalProcessor α) :
    (p.processed input).2.totalSamplesWritten = p.totalSamplesWritten + input.length :=
  (foldl_write input p).2.1

theorem processed_writePos [Zero α] (input : List α) (p : FramedSignalProcessor α) :
    (p.processed input).2.writePos = (p.writePos + input.length) % p.ringSize :=
  (foldl_write input p).2.2

theorem processed_ringSize [Zero α] (input : List α) (p : FramedSignalProcessor α) :
    (p.processed input).2.ringSize = p.ringSize := by
  rw [ringSize_eq, ringSize_eq, processed_frameSize]

theorem processed_isSome [Zero α] (input : List α) (p : FramedSignalProcessor α) :
    (p.processed input).1.isSome =
      decide (p.frameSize ≤ p.totalSamplesWritten + input.length) := by
  obtain ⟨hsize, htotal, _⟩ := foldl_write input p
  rw [processed, hsize, htotal]
  by_cases hle : p.frameSize ≤ p.totalSamplesWritten + input.length
  · rw [if_pos hle, decide_eq_true hle]
    rfl
  · rw [if_neg hle, decide_eq_false hle]
    rfl

/-- One call is undefined just when it has a frame to give and an index of it overflows. -/
theorem process_eq [Zero α] (input : List α) (p : FramedSignalProcessor α) (hsize : 0 < p.frameSize) :
    p.process input =
      if p.frameSize ≤ p.totalSamplesWritten + input.length →
          (p.writePos + input.length) % p.ringSize + p.ringSize ≤ 2147483647 then
        some (p.processed input)
      else none := by
  have hfits : (input.foldl write p).Fits ↔
      (p.writePos + input.length) % p.ringSize + p.ringSize ≤ 2147483647 := by
    have hring := p.processed_ringSize input
    have hpos := p.processed_writePos input
    rw [processed] at hring hpos
    rw [Fits, hring, hpos]
  obtain ⟨hframe, htotal, _⟩ := foldl_write input p
  rw [process, processed, hframe, htotal]
  by_cases hlen : p.frameSize ≤ p.totalSamplesWritten + input.length
  · rw [if_pos hlen, if_pos hlen]
    by_cases hin : (input.foldl write p).Fits
    · rw [if_pos fun _ ↦ hfits.mp hin, frame, readIndices_eq hin, hframe]
      simp only [Option.bind_eq_bind, Option.bind_some, Option.pure_def, List.map_map,
        Function.comp_def]
    · rw [if_neg fun h ↦ hin (hfits.mpr (h hlen)), frame, readIndices_none hin (hframe ▸ hsize)]
      rfl
  · rw [if_neg hlen, if_neg hlen, if_pos fun h ↦ absurd h hlen]
    rfl

theorem process_some [Zero α] {input : List α} {p : FramedSignalProcessor α}
    {out : Option (List α) × FramedSignalProcessor α} (hsize : 0 < p.frameSize)
    (h : p.process input = some out) : out = p.processed input := by
  rw [process_eq input p hsize] at h
  split_ifs at h
  exact (Option.some.inj h).symm

theorem process_of_le [Zero α] {p : FramedSignalProcessor α} (hsize : 0 < p.frameSize)
    (h : 2 * p.ringSize ≤ 2147483648) (input : List α) :
    p.process input = some (p.processed input) := by
  rw [process_eq input p hsize, if_pos]
  intro _
  have hmod := Nat.mod_lt (p.writePos + input.length) (p.writePos.zero_le.trans_lt p.writePos_lt)
  omega

end FramedSignalProcessor

/-- The size of the ring is an `int`, and where a call ends that may emit a frame, the position and
the size of the ring add up to one. The numbers count the samples up to the ends of the calls. -/
def Representable (frameSize : ℕ) (counts : List ℕ) : Prop :=
  frameSize * 11 / 10 ≤ 2147483647 ∧ ∀ n ∈ counts, frameSize ≤ n →
    n % (frameSize * 11 / 10) + frameSize * 11 / 10 ≤ 2147483647

instance (frameSize : ℕ) (counts : List ℕ) : Decidable (Representable frameSize counts) :=
  inferInstanceAs (Decidable (_ ∧ _))

theorem representable_of_le {frameSize : ℕ} {counts : List ℕ} (hframe : 0 < frameSize)
    (h : 2 * (frameSize * 11 / 10) ≤ 2147483648) : Representable frameSize counts := by
  refine ⟨by omega, fun n _ _ ↦ ?_⟩
  have hmod := Nat.mod_lt n (show 0 < frameSize * 11 / 10 by omega)
  omega

/-- What the processor is for, block by block: its state is the stream it has
heard, and it answers with the last samples of it. -/
def listen (frameSize : ℕ) (input stream : List α) : Option (List α) × List α :=
  (if frameSize ≤ (stream ++ input).length then some ((stream ++ input).rtake frameSize) else none,
    stream ++ input)

structure Heard (frameSize : ℕ) (p : FramedSignalProcessor α) (stream : List α) : Prop where
  frameSize : p.frameSize = frameSize
  total : p.totalSamplesWritten = stream.length
  ring : Holds p.ringBuffer p.writePos stream

namespace Heard

variable {frameSize : ℕ} {p : FramedSignalProcessor α} {stream : List α}

theorem write (h : Heard frameSize p stream) (sample : α) :
    Heard frameSize (p.write sample) (stream ++ [sample]) := by
  refine ⟨h.frameSize, ?_, ?_⟩
  · rw [List.length_append, List.length_singleton, ← h.total]
    rfl
  · have hring := h.ring.write (by rw [p.length_ringBuffer]; exact p.writePos_lt) sample
    rwa [p.length_ringBuffer] at hring

theorem foldl (h : Heard frameSize p stream) (input : List α) :
    Heard frameSize (input.foldl FramedSignalProcessor.write p) (stream ++ input) := by
  induction input generalizing p stream with
  | nil => simpa using h
  | cons sample input ih => simpa using ih (h.write sample)

variable [Zero α]

theorem new {hopSize : ℕ} (h : 0 < frameSize) :
    Heard frameSize (FramedSignalProcessor.new (α := α) frameSize hopSize h) [] :=
  ⟨rfl, rfl, Holds.nil⟩

theorem reset (h : Heard frameSize p stream) : Heard frameSize p.reset [] :=
  ⟨h.frameSize, rfl, Holds.nil⟩

theorem frame (h : Heard frameSize p stream) (hlen : frameSize ≤ stream.length) :
    ((List.range p.frameSize).map fun i ↦
      p.ringBuffer.getD ((p.writePos + p.ringSize - p.frameSize + i) % p.ringSize) 0) =
        stream.rtake frameSize := by
  have hle := p.frameSize_le
  rw [h.frameSize] at hle
  apply List.ext_getElem?
  intro i
  rw [h.frameSize, List.getElem?_map]
  by_cases hi : i < frameSize
  · have hread := h.ring.read (by rw [p.length_ringBuffer]; exact hle) hlen hi
    rw [p.length_ringBuffer] at hread
    have hsome : i < (stream.rtake frameSize).length := by
      rw [List.rtake, List.length_drop]
      omega
    rw [List.getElem?_range hi, Option.map_some, List.getD_eq_getElem?_getD, hread,
      List.getElem?_eq_getElem hsome, Option.getD_some]
  · have hnone : (stream.rtake frameSize).length ≤ i := by
      rw [List.rtake, List.length_drop]
      omega
    rw [List.getElem?_eq_none hnone, List.getElem?_eq_none (by simpa using hi), Option.map_none]

theorem processed (h : Heard frameSize p stream) (input : List α) :
    (p.processed input).1 = (listen frameSize input stream).1 ∧
      Heard frameSize (p.processed input).2 (listen frameSize input stream).2 := by
  have hp := h.foldl input
  refine ⟨?_, hp⟩
  rw [FramedSignalProcessor.processed, listen]
  simp only [hp.frameSize, hp.total]
  split_ifs with hlen
  · rw [← hp.frame hlen]
    simp only [hp.frameSize]
  · rfl

end Heard

end BeatNet.Onnx
