import BeatNet.Onnx.FrameProcessor
import Mathlib.Data.List.ReduceOption
import Mathlib.Data.List.SplitLengths
import Mathlib.Algebra.Order.Ring.Nat

namespace BeatNet.Onnx

open Library.Machines

variable {α : Type}

def emitted [Zero α] : List (List α) → FramedSignalProcessor α → Option (List (List α))
  | [], _ => some []
  | block :: blocks, p => do
    let out ← p.process block
    let rest ← emitted blocks out.2
    return out.1.toList ++ rest

def gridEnds (first hopSize n : ℕ) : List ℕ :=
  ((List.range (n + 1)).filter fun k ↦ k * hopSize + first ≤ n).map fun k ↦ k * hopSize + first

/-- The frames of a stream, one every hop, as far as the samples have arrived. -/
def grid (frameSize hopSize : ℕ) (stream : List α) : List (List α) :=
  ((List.range (stream.length + 1)).filter fun k ↦ k * hopSize + frameSize ≤ stream.length).map
    fun k ↦ (stream.drop (k * hopSize)).take frameSize

def ends : ℕ → List ℕ → List ℕ
  | _, [] => []
  | t, n :: sizes => (t + n) :: ends (t + n) sizes

/-- Blocks that end on the grid: one of them ends with the first frame, and
from there on every block is one hop long. -/
def OnGrid (frameSize hopSize : ℕ) (sizes : List ℕ) : Prop :=
  sizes.sum < frameSize ∨ ∃ before first after, sizes = before ++ first :: after ∧
    before.sum < frameSize ∧ before.sum + first = frameSize ∧ ∀ n ∈ after, n = hopSize

section Ends

variable {frameSize hopSize first n t : ℕ} {sizes : List ℕ}

theorem gridEnds_of_lt (h : n < first) : gridEnds first hopSize n = [] := by
  rw [gridEnds, List.map_eq_nil_iff, List.filter_eq_nil_iff]
  intro k _
  simp only [decide_eq_true_eq]
  omega

theorem gridEnds_of_le (hhop : 0 < hopSize) (h : first ≤ n) :
    gridEnds first hopSize n = first :: gridEnds (first + hopSize) hopSize n := by
  have hshift : ∀ k, (k + 1) * hopSize + first = k * hopSize + (first + hopSize) := by
    intro k
    rw [Nat.succ_mul]
    omega
  have hlast : ¬ n * hopSize + (first + hopSize) ≤ n := by
    have hmul := Nat.le_mul_of_pos_right n hhop
    omega
  have hfilter : (List.range (n + 1)).filter (fun k ↦ k * hopSize + (first + hopSize) ≤ n) =
      (List.range n).filter fun k ↦ k * hopSize + (first + hopSize) ≤ n := by
    rw [List.range_succ, List.filter_append]
    simp [hlast]
  rw [gridEnds, gridEnds, hfilter, List.range_succ_eq_map,
    List.filter_cons_of_pos (by simpa using h), List.map_cons, List.filter_map, List.map_map]
  simp only [Function.comp_def, Nat.succ_eq_add_one, hshift, Nat.zero_mul, Nat.zero_add]

theorem le_of_mem_ends {e : ℕ} (h : e ∈ ends t sizes) : t ≤ e ∧ e ≤ t + sizes.sum := by
  induction sizes generalizing t with
  | nil => cases h
  | cons n sizes ih =>
    rw [List.sum_cons]
    rcases List.mem_cons.mp h with rfl | h
    · omega
    · have hle := ih h
      omega

theorem ends_eq_gridEnds (hhop : 0 < hopSize) :
    ends t sizes = gridEnds (t + hopSize) hopSize (t + sizes.sum) ↔ ∀ n ∈ sizes, n = hopSize := by
  induction sizes generalizing t with
  | nil => simp [ends, gridEnds_of_lt, hhop]
  | cons n sizes ih =>
    rw [ends, List.sum_cons, List.forall_mem_cons]
    by_cases hle : t + hopSize ≤ t + (n + sizes.sum)
    · rw [gridEnds_of_le hhop hle, List.cons_eq_cons, Nat.add_left_cancel_iff]
      apply and_congr_right
      intro hn
      subst hn
      rw [← ih (t := t + n), add_assoc t n sizes.sum]
    · rw [gridEnds_of_lt (by omega)]
      apply iff_of_false
      · simp
      · intro h
        omega

theorem exists_split_cons {P : List ℕ → ℕ → List ℕ → Prop} :
    (∃ before first after, n :: sizes = before ++ first :: after ∧ P before first after) ↔
      P [] n sizes ∨
        ∃ before first after, sizes = before ++ first :: after ∧ P (n :: before) first after := by
  apply Iff.intro
  · intro h
    obtain ⟨before, first, after, hsizes, h⟩ := h
    cases before with
    | nil =>
      cases hsizes
      exact .inl h
    | cons m before =>
      cases hsizes
      exact .inr ⟨before, first, after, rfl, h⟩
  · intro h
    rcases h with h | ⟨before, first, after, rfl, h⟩
    · exact ⟨[], n, sizes, rfl, h⟩
    · exact ⟨n :: before, first, after, rfl, h⟩

theorem filter_ends_eq_gridEnds (hhop : 0 < hopSize) (ht : t < frameSize) :
    (ends t sizes).filter (frameSize ≤ ·) = gridEnds frameSize hopSize (t + sizes.sum) ↔
      t + sizes.sum < frameSize ∨ ∃ before first after, sizes = before ++ first :: after ∧
        t + before.sum < frameSize ∧ t + before.sum + first = frameSize ∧
          ∀ n ∈ after, n = hopSize := by
  induction sizes generalizing t with
  | nil => simp [ends, gridEnds_of_lt, ht]
  | cons n sizes ih =>
    rw [ends, List.sum_cons, exists_split_cons]
    simp only [List.sum_nil, List.sum_cons, ← add_assoc, add_zero]
    by_cases hn : t + n < frameSize
    · rw [List.filter_cons_of_neg (by simpa using hn), ih hn]
      apply or_congr_right
      rw [or_iff_right fun h ↦ hn.ne h.2.1]
    · -- the first block that reaches the frame size has to end exactly there
      have hall : ∀ e ∈ ends (t + n) sizes, decide (frameSize ≤ e) = true := by
        intro e he
        have hle := le_of_mem_ends he
        simp only [decide_eq_true_eq]
        omega
      rw [List.filter_cons_of_pos (by simpa using hn), List.filter_eq_self.mpr hall,
        gridEnds_of_le hhop (by omega), List.cons_eq_cons, or_iff_right (by omega)]
      have hlater : ¬ ∃ before first after, sizes = before ++ first :: after ∧
          t + n + before.sum < frameSize ∧ t + n + before.sum + first = frameSize ∧
            ∀ n ∈ after, n = hopSize := by
        rintro ⟨before, first, after, _, hlt, _⟩
        omega
      rw [or_iff_left hlater, and_iff_right ht]
      apply and_congr_right
      intro heq
      rw [← heq]
      exact ends_eq_gridEnds hhop

theorem onGrid_iff (hhop : 0 < hopSize) (hframe : 0 < frameSize) :
    OnGrid frameSize hopSize sizes ↔
      (ends 0 sizes).filter (frameSize ≤ ·) = gridEnds frameSize hopSize sizes.sum := by
  have h : (ends 0 sizes).filter (frameSize ≤ ·) = gridEnds frameSize hopSize (0 + sizes.sum) ↔ _ :=
    filter_ends_eq_gridEnds hhop hframe
  simp only [zero_add] at h
  exact h.symm

end Ends

section Frames

variable {frameSize hopSize : ℕ}

theorem grid_eq (stream : List α) :
    grid frameSize hopSize stream =
      (gridEnds frameSize hopSize stream.length).map fun t ↦ (stream.take t).rtake frameSize := by
  rw [grid, gridEnds, List.map_map]
  apply List.map_congr_left
  intro k hk
  have hle : k * hopSize + frameSize ≤ stream.length := by simpa using (List.mem_filter.mp hk).2
  rw [Function.comp_apply, List.rtake, List.length_take, min_eq_left hle, List.drop_take]
  congr 2 <;> omega

theorem trace_listen (blocks : List (List α)) (stream : List α) :
    (trace (listen frameSize) blocks stream).1.reduceOption =
      ((ends stream.length (blocks.map List.length)).filter (frameSize ≤ ·)).map
        fun t ↦ ((stream ++ blocks.flatten).take t).rtake frameSize := by
  induction blocks generalizing stream with
  | nil => rfl
  | cons block blocks ih =>
    have hrest := ih (stream ++ block)
    rw [List.length_append, List.append_assoc] at hrest
    have htake : (stream ++ (block ++ blocks.flatten)).take (stream.length + block.length) =
        stream ++ block := by
      rw [← List.append_assoc, ← List.length_append, List.take_left']
      rfl
    rw [trace_cons, List.map_cons, ends, List.flatten_cons]
    by_cases hle : frameSize ≤ stream.length + block.length
    · rw [List.filter_cons_of_pos (by simpa using hle), List.map_cons, htake, ← hrest]
      simp [listen, hle]
    · rw [List.filter_cons_of_neg (by simpa using hle), ← hrest]
      simp [listen, hle]

variable [Zero α]

theorem trace_processed (hframe : 0 < frameSize) (blocks : List (List α)) :
    (trace FramedSignalProcessor.processed blocks (.new frameSize hopSize hframe)).1.reduceOption =
      ((ends 0 (blocks.map List.length)).filter (frameSize ≤ ·)).map
        fun t ↦ (blocks.flatten.take t).rtake frameSize := by
  have hsim := trace_simulates (fun input _ _ h ↦ Heard.processed h input)
    (show Heard frameSize (.new frameSize hopSize hframe : FramedSignalProcessor α) [] from
      Heard.new hframe) blocks
  rw [hsim.1, trace_listen]
  rfl

theorem emitted_eq_ite {p : FramedSignalProcessor α} (hsize : 0 < p.frameSize)
    (hpos : p.writePos = p.totalSamplesWritten % p.ringSize) (blocks : List (List α)) :
    emitted blocks p =
      if ∀ e ∈ ends p.totalSamplesWritten (blocks.map List.length), p.frameSize ≤ e →
          e % p.ringSize + p.ringSize ≤ 2147483647 then
        some (trace FramedSignalProcessor.processed blocks p).1.reduceOption
      else none := by
  induction blocks generalizing p with
  | nil => simp [emitted, ends]
  | cons block blocks ih =>
    have hframe := p.processed_frameSize block
    have htotal := p.processed_total block
    have hring := p.processed_ringSize block
    have hnext : (p.processed block).2.writePos =
        (p.totalSamplesWritten + block.length) % p.ringSize := by
      rw [p.processed_writePos block, hpos, Nat.mod_add_mod]
    have hrest := ih (p := (p.processed block).2) (by rwa [hframe]) (by rw [hnext, htotal, hring])
    rw [hframe, htotal, hring] at hrest
    rw [emitted, p.process_eq block hsize]
    simp only [List.map_cons, ends, List.forall_mem_cons, hpos, Nat.mod_add_mod]
    by_cases hnow : p.frameSize ≤ p.totalSamplesWritten + block.length →
        (p.totalSamplesWritten + block.length) % p.ringSize + p.ringSize ≤ 2147483647
    · rw [if_pos hnow]
      by_cases hall : ∀ e ∈ ends (p.totalSamplesWritten + block.length) (blocks.map List.length),
          p.frameSize ≤ e → e % p.ringSize + p.ringSize ≤ 2147483647
      · rw [if_pos ⟨hnow, hall⟩, trace_cons]
        simp only [Option.bind_eq_bind, Option.bind_some]
        rw [hrest, if_pos hall]
        cases (p.processed block).1 <;> rfl
      · rw [if_neg fun h ↦ hall h.2]
        simp only [Option.bind_eq_bind, Option.bind_some]
        rw [hrest, if_neg hall]
        rfl
    · rw [if_neg hnow, if_neg fun h ↦ hnow h.1]
      rfl

theorem construct_emitted (hframe : 0 < frameSize) (blocks : List (List α)) :
    (FramedSignalProcessor.construct frameSize hopSize hframe).bind (emitted blocks) =
      if Representable frameSize (ends 0 (blocks.map List.length)) then
        some (((ends 0 (blocks.map List.length)).filter (frameSize ≤ ·)).map
          fun t ↦ (blocks.flatten.take t).rtake frameSize)
      else none := by
  rw [FramedSignalProcessor.construct_eq]
  split_ifs with hring hfits hfits
  · rw [Option.bind_some, emitted_eq_ite hframe (Nat.zero_mod _).symm, trace_processed]
    exact if_pos hfits.2
  · rw [Option.bind_some, emitted_eq_ite hframe (Nat.zero_mod _).symm]
    exact if_neg fun h ↦ hfits ⟨hring, h⟩
  · exact absurd hfits.1 hring
  · rfl

theorem ends_of_frames [Nontrivial α] {es gs : List ℕ} {n : ℕ} (hframe : 0 < frameSize)
    (hes : ∀ e ∈ es, frameSize ≤ e ∧ e ≤ n) (hgs : ∀ g ∈ gs, frameSize ≤ g ∧ g ≤ n)
    (h : ∀ stream : List α, stream.length = n →
      (es.map fun t ↦ (stream.take t).rtake frameSize) =
        gs.map fun t ↦ (stream.take t).rtake frameSize) : es = gs := by
  have hlast : ∀ (stream : List α) (t : ℕ), frameSize ≤ t → t ≤ stream.length →
      ((stream.take t).rtake frameSize)[frameSize - 1]? = stream[t - 1]? := by
    intro stream t hlo hhi
    rw [List.rtake, List.getElem?_drop, List.length_take, min_eq_left hhi, List.getElem?_take,
      if_pos (by omega)]
    congr 1
    omega
  have hlen : es.length = gs.length := by
    simpa using congrArg List.length (h (List.replicate n 0) List.length_replicate)
  obtain ⟨one, hone⟩ := exists_ne (0 : α)
  apply List.ext_getElem hlen
  intro m he hg
  by_contra hne
  have heb := hes _ (List.getElem_mem he)
  have hgb := hgs _ (List.getElem_mem hg)
  -- a stream that is silent but for the last sample of one of the two frames
  have hstream := congrArg (·[m]?) (h ((List.replicate n 0).set (es[m] - 1) one) (by simp))
  simp only [List.getElem?_map, List.getElem?_eq_getElem he, List.getElem?_eq_getElem hg,
    Option.map_some, Option.some.injEq] at hstream
  have hsample := congrArg (·[frameSize - 1]?) hstream
  beta_reduce at hsample
  rw [hlast _ _ heb.1 (by simpa using heb.2), hlast _ _ hgb.1 (by simpa using hgb.2),
    List.getElem?_set_self (by simp; omega), List.getElem?_set_ne (by omega),
    List.getElem?_replicate, if_pos (by omega)] at hsample
  exact hone (Option.some.inj hsample)

/-- Blocks of the given sizes emit the frames of every stream, one every hop,
exactly when they end on the grid and no index overflows. -/
theorem block_size_independence [Nontrivial α] {sizes : List ℕ} (hframe : 0 < frameSize)
    (hhop : 0 < hopSize) :
    (∀ blocks : List (List α), blocks.map List.length = sizes →
      (FramedSignalProcessor.construct frameSize hopSize hframe).bind (emitted blocks) =
        some (grid frameSize hopSize blocks.flatten)) ↔
      OnGrid frameSize hopSize sizes ∧ Representable frameSize (ends 0 sizes) := by
  rw [onGrid_iff hhop hframe]
  apply Iff.intro
  · intro h
    have hsplit : ∀ stream : List α, stream.length = sizes.sum →
        (sizes.splitLengths stream).map List.length = sizes ∧
          (sizes.splitLengths stream).flatten = stream := fun stream hlen ↦
      ⟨List.map_splitLengths_length stream sizes hlen.ge,
        List.flatten_splitLengths stream sizes hlen.le⟩
    have hfits : Representable frameSize (ends 0 sizes) := by
      obtain ⟨hsizes, _⟩ := hsplit (List.replicate sizes.sum 0) List.length_replicate
      have hruns := h _ hsizes
      rw [construct_emitted, hsizes] at hruns
      by_contra hnot
      rw [if_neg hnot] at hruns
      cases hruns
    refine ⟨ends_of_frames (α := α) (n := sizes.sum) hframe ?_ ?_ ?_, hfits⟩
    · intro e he
      obtain ⟨he, hle⟩ := List.mem_filter.mp he
      have hb := le_of_mem_ends he
      rw [zero_add] at hb
      exact ⟨by simpa using hle, hb.2⟩
    · intro g hg
      obtain ⟨k, hk, rfl⟩ := List.mem_map.mp hg
      have hle : k * hopSize + frameSize ≤ sizes.sum := by simpa using (List.mem_filter.mp hk).2
      exact ⟨by omega, hle⟩
    · intro stream hlen
      obtain ⟨hsizes, hflat⟩ := hsplit stream hlen
      have heq := h (sizes.splitLengths stream) hsizes
      rw [construct_emitted, hsizes, if_pos hfits, hflat, grid_eq, hlen] at heq
      exact Option.some.inj heq
  · rintro ⟨h, hfits⟩ blocks hsizes
    have hlen : blocks.flatten.length = sizes.sum := by rw [List.length_flatten, hsizes]
    rw [construct_emitted, hsizes, if_pos hfits, h, grid_eq, hlen]

theorem block_size_independence_hops :
    (FramedSignalProcessor.construct 3 1 (by decide)).bind (emitted [[1], [2, 3], [4], [5]]) =
      some (grid 3 1 ([[1], [2, 3], [4], [5]] : List (List ℕ)).flatten) :=
  (block_size_independence (by decide) (by decide)).mpr
    ⟨.inr ⟨[1], 2, [1, 1], rfl, by decide, by decide, by decide⟩,
      representable_of_le (by decide) (by decide)⟩ _ rfl

/-- A block of two hops yields one frame where two are due. -/
theorem block_size_dependence :
    ¬ ∀ (frameSize hopSize : ℕ) (hframe : 0 < frameSize), 0 < hopSize →
      ∀ blocks blocks' : List (List ℕ), blocks.flatten = blocks'.flatten →
        (FramedSignalProcessor.construct frameSize hopSize hframe).bind (emitted blocks) =
            (FramedSignalProcessor.construct frameSize hopSize hframe).bind (emitted blocks') ∧
          (FramedSignalProcessor.construct frameSize hopSize hframe).bind (emitted blocks) =
            some (grid frameSize hopSize blocks.flatten) := by
  intro h
  have heq := h 3 1 (by decide) (by decide) [[1, 2, 3], [4, 5]] [[1, 2, 3], [4], [5]] rfl
  revert heq
  decide

end Frames

end BeatNet.Onnx
