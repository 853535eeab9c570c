import BeatNet.Handler
import BeatNet.Library.Machines
import BeatNet.Library.Softmax
import Mathlib.Algebra.BigOperators.Fin
import Mathlib.Analysis.SpecialFunctions.Exp

namespace BeatNet

open Library.Machines Library.Softmax

variable {K : Type} [Field K] [LinearOrder K]

/-- A layer of PyTorch, as are the next ones. They compute what their documentation says. -/
structure Linear (K : Type) (m n : ℕ) where
  weight : Fin n → Fin m → K
  bias : Fin n → K

structure Conv1d (K : Type) (channels kernel : ℕ) where
  weight : Fin channels → Fin kernel → K
  bias : Fin channels → K

structure Gate (K : Type) (m n : ℕ) where
  input : Linear K m n
  hidden : Linear K n n

structure LstmLayer (K : Type) (m n : ℕ) where
  i : Gate K m n
  f : Gate K m n
  g : Gate K m n
  o : Gate K m n

structure LayerState (K : Type) (n : ℕ) where
  hidden : Fin n → K
  cell : Fin n → K

section Layers

variable {m n channels kernel : ℕ}

def Linear.apply (l : Linear K m n) (x : Fin m → K) (i : Fin n) : K :=
  ∑ j, l.weight i j * x j + l.bias i

/-- One channel comes in. Every position takes in as many samples as the kernel is long. -/
def Conv1d.apply (conv : Conv1d K channels kernel) (hle : kernel ≤ m) (x : Fin m → K)
    (c : Fin channels) (i : Fin (m - kernel + 1)) : K :=
  ∑ k : Fin kernel, conv.weight c k * x ⟨i + k, by omega⟩ + conv.bias c

def relu (x : K) : K := max 0 x

def maxPool1d (x : Fin n → K) (i : Fin (n / 2)) : K :=
  max (x ⟨2 * i, by omega⟩) (x ⟨2 * i + 1, by omega⟩)

def flatten (x : Fin channels → Fin n → K) (i : Fin (channels * n)) : K := x i.divNat i.modNat

variable (maths : Exponential K)

def sigmoid (x : K) : K := 1 / (1 + maths.exp (-x))

def tanh (x : K) : K := (maths.exp x - maths.exp (-x)) / (maths.exp x + maths.exp (-x))

def Gate.apply (gate : Gate K m n) (x : Fin m → K) (h : Fin n → K) (j : Fin n) : K :=
  gate.input.apply x j + gate.hidden.apply h j

def LstmLayer.step (l : LstmLayer K m n) (x : Fin m → K) (s : LayerState K n) :
    (Fin n → K) × LayerState K n :=
  let cell := fun j ↦ sigmoid maths (l.f.apply x s.hidden j) * s.cell j +
    sigmoid maths (l.i.apply x s.hidden j) * tanh maths (l.g.apply x s.hidden j)
  let hidden := fun j ↦ sigmoid maths (l.o.apply x s.hidden j) * tanh maths (cell j)
  (hidden, ⟨hidden, cell⟩)

end Layers

structure BDA (K : Type) where
  dimIn : ℕ
  dimHd : ℕ
  kernelsize_le : 10 ≤ dimIn
  conv1 : Conv1d K 2 10
  linear0 : Linear K (2 * ((dimIn - 10 + 1) / 2)) 150
  lower : LstmLayer K 150 dimHd
  upper : LstmLayer K dimHd dimHd
  linear : Linear K dimHd 3

namespace BDA

variable (maths : Exponential K) (net : BDA K)

/-- The fields `hidden` and `cell`, by layers. -/
abbrev Recurrent := LayerState K net.dimHd × LayerState K net.dimHd

def initial : net.Recurrent := (⟨0, 0⟩, ⟨0, 0⟩)

def embed (x : Fin net.dimIn → K) : Fin 150 → K :=
  net.linear0.apply (flatten fun c ↦
    maxPool1d fun i ↦ relu (net.conv1.apply net.kernelsize_le x c i))

/-- `forward`, on the feature vectors of a batch of one. Each layer works through all frames before
the next one starts. -/
def forward (data : List (Fin net.dimIn → K)) (s : net.Recurrent) :
    List (Fin 3 → K) × net.Recurrent :=
  let lower := trace (net.lower.step maths) (data.map net.embed) s.1
  let upper := trace (net.upper.step maths) lower.1 s.2
  (upper.1.map net.linear.apply, lower.2, upper.2)

def finalPred (input : Fin 3 → K) : Fin 3 → K := softmax maths input

def step (feat : Fin net.dimIn → K) (s : net.Recurrent) : (Fin 3 → K) × net.Recurrent :=
  let out := stack (net.lower.step maths) (net.upper.step maths) (net.embed feat) s
  (net.linear.apply out.1, out.2)

theorem forward_eq_trace (data : List (Fin net.dimIn → K)) (s : net.Recurrent) :
    net.forward maths data s = trace (net.step maths) data s := by
  have hstack := trace_stack (net.lower.step maths) (net.upper.step maths) (data.map net.embed)
    s.1 s.2
  rw [trace_map] at hstack
  have hstep : net.step maths = fun x s ↦
      (net.linear.apply (stack (net.lower.step maths) (net.upper.step maths) (net.embed x) s).1,
        (stack (net.lower.step maths) (net.upper.step maths) (net.embed x) s).2) := rfl
  rw [hstep, map_trace net.linear.apply, hstack, forward]

end BDA

theorem Setup.unroll_eq_trace {α F H : Type} (setup : Setup α F H) (feats : List F) (hidden : H) :
    setup.unroll feats hidden = trace setup.cell feats hidden := by
  induction feats generalizing hidden with
  | nil => rfl
  | cons feat feats ih => rw [Setup.unroll, trace_cons, ih]

namespace BDA

section Rational

variable (maths : Exponential ℚ) (net : BDA ℚ)

def row (out : Fin 3 → ℚ) : Activation where
  beat := finalPred maths out 0
  downbeat := finalPred maths out 1
  beat_nonneg := (softmax_pos 0).le
  downbeat_nonneg := (softmax_pos 1).le

def activations (data : List (Fin net.dimIn → ℚ)) (s : net.Recurrent) :
    List Activation × net.Recurrent :=
  let preds := net.forward maths data s
  (preds.1.map (row maths), preds.2)

def cell (feat : Fin net.dimIn → ℚ) (s : net.Recurrent) : Activation × net.Recurrent :=
  let out := net.step maths feat s
  (row maths out.1, out.2)

variable {maths net}

theorem activations_eq_trace (data : List (Fin net.dimIn → ℚ)) (s : net.Recurrent) :
    net.activations maths data s = trace (net.cell maths) data s := by
  rw [activations, forward_eq_trace]
  exact (map_trace (row maths) data s).symm

end Rational

end BDA

def Setup.withNetwork {α : Type} {net : BDA ℚ} (setup : Setup α (Fin net.dimIn → ℚ) net.Recurrent)
    (maths : Exponential ℚ) : Setup α (Fin net.dimIn → ℚ) net.Recurrent :=
  { setup with cell := net.cell maths }

/-- The detector, which works layer by layer, computes what the handler's network does frame by
frame, and however the frames are cut into calls, it puts out the same activations and ends in the
same state. -/
theorem network_calls {α : Type} {net : BDA ℚ}
    (setup : Setup α (Fin net.dimIn → ℚ) net.Recurrent) (maths : Exponential ℚ)
    (calls : List (List (Fin net.dimIn → ℚ))) (s : net.Recurrent) :
    net.activations maths calls.flatten s = (setup.withNetwork maths).unroll calls.flatten s ∧
      net.activations maths calls.flatten s =
        ((trace (net.activations maths) calls s).1.flatten,
          (trace (net.activations maths) calls s).2) := by
  have htrace : net.activations maths = trace (net.cell maths) := by
    funext data s
    exact BDA.activations_eq_trace data s
  refine ⟨?_, ?_⟩
  · rw [Setup.unroll_eq_trace, htrace]
    rfl
  · rw [htrace, trace_flatten]

section Bounds

variable [IsStrictOrderedRing K] (maths : Exponential K) {m n : ℕ}

theorem sigmoid_pos (x : K) : 0 < sigmoid maths x := by
  have hexp := maths.exp_pos (-x)
  exact one_div_pos.mpr (by linarith)

theorem sigmoid_le_one (x : K) : sigmoid maths x ≤ 1 := by
  have hexp := maths.exp_pos (-x)
  rw [sigmoid, div_le_one (by linarith)]
  linarith

theorem abs_tanh_le_one (x : K) : |tanh maths x| ≤ 1 := by
  have hx := maths.exp_pos x
  have hneg := maths.exp_pos (-x)
  rw [tanh, abs_div, abs_of_pos (by linarith : 0 < maths.exp x + maths.exp (-x)),
    div_le_one (by linarith), abs_le]
  exact ⟨by linarith, by linarith⟩

theorem abs_sigmoid_mul_le (x : K) {y bound : K} (hy : |y| ≤ bound) :
    |sigmoid maths x * y| ≤ bound := by
  rw [abs_mul, abs_of_pos (sigmoid_pos maths x)]
  calc sigmoid maths x * |y| ≤ 1 * |y| :=
      mul_le_mul_of_nonneg_right (sigmoid_le_one maths x) (abs_nonneg y)
    _ = |y| := one_mul _
    _ ≤ bound := hy

structure LayerState.Bounded (frames : ℕ) (s : LayerState K n) : Prop where
  hidden : ∀ j, |s.hidden j| ≤ 1
  cell : ∀ j, |s.cell j| ≤ frames

theorem LstmLayer.step_bounded (l : LstmLayer K m n) (x : Fin m → K) {s : LayerState K n}
    {frames : ℕ} (h : s.Bounded frames) :
    (∀ j, |(l.step maths x s).1 j| ≤ 1) ∧ (l.step maths x s).2.Bounded (frames + 1) := by
  have hhidden : ∀ j, |(l.step maths x s).1 j| ≤ 1 := fun j ↦
    abs_sigmoid_mul_le maths _ (abs_tanh_le_one maths _)
  refine ⟨hhidden, hhidden, fun j ↦ ?_⟩
  have hforget := abs_sigmoid_mul_le maths (l.f.apply x s.hidden j) (h.cell j)
  have hinput := abs_sigmoid_mul_le maths (l.i.apply x s.hidden j)
    (abs_tanh_le_one maths (l.g.apply x s.hidden j))
  push_cast
  exact (abs_add_le _ _).trans (add_le_add hforget hinput)

def Linear.bound (l : Linear K m n) : K := ∑ k, (∑ j, |l.weight k j| + |l.bias k|)

theorem Linear.abs_apply_le (l : Linear K m n) {x : Fin m → K} (hx : ∀ j, |x j| ≤ 1) (k : Fin n) :
    |l.apply x k| ≤ l.bound := by
  have hterm : ∀ j ∈ Finset.univ, |l.weight k j * x j| ≤ |l.weight k j| := fun j _ ↦ by
    rw [abs_mul]
    exact mul_le_of_le_one_right (abs_nonneg _) (hx j)
  have hnonneg : ∀ k ∈ Finset.univ, 0 ≤ ∑ j, |l.weight k j| + |l.bias k| := fun k _ ↦
    add_nonneg (Finset.sum_nonneg fun j _ ↦ abs_nonneg _) (abs_nonneg _)
  calc |l.apply x k| ≤ |∑ j, l.weight k j * x j| + |l.bias k| := abs_add_le _ _
    _ ≤ ∑ j, |l.weight k j * x j| + |l.bias k| := by
      gcongr
      exact Finset.abs_sum_le_sum_abs _ _
    _ ≤ ∑ j, |l.weight k j| + |l.bias k| := by
      have hsum := Finset.sum_le_sum hterm
      linarith
    _ ≤ l.bound := Finset.single_le_sum hnonneg (Finset.mem_univ k)

end Bounds

namespace BDA

variable [IsStrictOrderedRing K] {maths : Exponential K} {net : BDA K}

def floor (maths : Exponential K) (net : BDA K) : K := share maths (Fin 3) net.linear.bound

structure Clear (maths : Exponential K) (net : BDA K) (pred : Fin 3 → K) : Prop where
  low : ∀ k, net.floor maths ≤ pred k
  high : pred 0 + pred 1 ≤ 1 - net.floor maths

theorem clear_finalPred {out : Fin net.dimHd → K} (hout : ∀ j, |out j| ≤ 1) :
    Clear maths net (finalPred maths (net.linear.apply out)) := by
  have hshare := share_le_softmax maths (net.linear.abs_apply_le hout)
  have hsum := sum_softmax maths (net.linear.apply out)
  rw [Fin.sum_univ_three] at hsum
  have hlast := hshare 2
  refine ⟨hshare, ?_⟩
  simp only [finalPred, floor]
  linarith

/-- Whatever the network has heard since its construction: the cells have grown at most by one in
each frame, the hidden state has stayed between -1 and 1, and the probabilities of all frames have
stayed away from 0 and from 1 by a margin that depends on the weights alone. -/
theorem network_bounded (maths : Exponential K) (net : BDA K) (data : List (Fin net.dimIn → K)) :
    ((net.forward maths data net.initial).2.1.Bounded data.length ∧
        (net.forward maths data net.initial).2.2.Bounded data.length) ∧
      0 < net.floor maths ∧ ∀ out ∈ (net.forward maths data net.initial).1,
        (∀ k, net.floor maths ≤ finalPred maths out k) ∧
          finalPred maths out 0 + finalPred maths out 1 ≤ 1 - net.floor maths := by
  have hinitial : net.initial.1.Bounded 0 ∧ net.initial.2.Bounded 0 := by
    refine ⟨⟨?_, ?_⟩, ?_, ?_⟩ <;> simp [initial]
  have hstep : ∀ (frames : ℕ) (x : Fin net.dimIn → K) (s : net.Recurrent),
      s.1.Bounded frames ∧ s.2.Bounded frames →
        Clear maths net (finalPred maths (net.step maths x s).1) ∧
          (net.step maths x s).2.1.Bounded (frames + 1) ∧
            (net.step maths x s).2.2.Bounded (frames + 1) := by
    intro frames x s hs
    obtain ⟨_, hlower⟩ := net.lower.step_bounded maths (net.embed x) hs.1
    obtain ⟨hout, hupper⟩ := net.upper.step_bounded maths
      (net.lower.step maths (net.embed x) s.1).1 hs.2
    exact ⟨clear_finalPred hout, hlower, hupper⟩
  obtain ⟨hclear, hfinal⟩ := trace_graded (I := fun frames (s : net.Recurrent) ↦
    s.1.Bounded frames ∧ s.2.Bounded frames) (P := fun out ↦ Clear maths net (finalPred maths out))
      hstep hinitial data
  rw [forward_eq_trace]
  rw [Nat.zero_add] at hfinal
  exact ⟨hfinal, share_pos, fun out hout ↦ ⟨(hclear out hout).low, (hclear out hout).high⟩⟩

noncomputable def exponential : Exponential ℝ := ⟨Real.exp, Real.exp_pos, Real.exp_monotone⟩

def ones (K : Type) [Field K] : BDA K :=
  let layer {m n : ℕ} : Linear K m n := ⟨fun _ _ ↦ 1, fun _ ↦ 0⟩
  let gate {m n : ℕ} : Gate K m n := ⟨layer, layer⟩
  { dimIn := 272
    dimHd := 1
    kernelsize_le := by decide
    conv1 := ⟨fun _ _ ↦ 1, fun _ ↦ 0⟩
    linear0 := layer
    lower := ⟨gate, gate, gate, gate⟩
    upper := ⟨gate, gate, gate, gate⟩
    linear := layer }

theorem floor_ones : (ones ℝ).floor exponential = Real.exp (-6) / 3 := by
  have hbound : (ones ℝ).linear.bound = 3 := by
    change ∑ _ : Fin 3, (∑ _ : Fin 1, |(1 : ℝ)| + |0|) = 3
    simp
  have hsplit : Real.exp (-6) = Real.exp (-3) / Real.exp 3 := by
    rw [← Real.exp_sub]
    norm_num
  rw [floor, share, hbound, hsplit, Fintype.card_fin, div_div, mul_comm]
  rfl

theorem network_bounded_ones :
    ((ones ℝ).forward exponential [1, 0] (ones ℝ).initial).2.1.Bounded 2 ∧
      ∀ out ∈ ((ones ℝ).forward exponential [1, 0] (ones ℝ).initial).1,
        ∀ k, Real.exp (-6) / 3 ≤ finalPred exponential out k := by
  obtain ⟨⟨hlower, _⟩, _, hpred⟩ := network_bounded exponential (ones ℝ) [1, 0]
  rw [floor_ones] at hpred
  exact ⟨hlower, fun out hout ↦ (hpred out hout).1⟩

end BDA

end BeatNet
