import BeatNet.Library.Blocks
import Mathlib.Data.Rat.Defs

namespace BeatNet

open Library.Blocks

/-- A one-beat bar state space: consecutive blocks of states, one block for
each interval length, a block of length `n` holding `n` states. -/
structure BarStateSpace where
  intervals : List ℕ
  intervals_pos : ∀ n ∈ intervals, 0 < n

namespace BarStateSpace

variable (st : BarStateSpace)

def numStates : ℕ := st.intervals.sum

def firsts : List ℕ := starts 0 st.intervals

def lasts : List ℕ := ends 0 st.intervals

/-- `first_states` holds one array for each beat, and there is one beat. -/
def firstStates : List (List ℕ) := [st.firsts]

def stateIntervals : List ℕ := labels st.intervals

def shortest : ℕ := st.intervals.min?.getD 0

variable {st}

@[simp] theorem flatten_firstStates : st.firstStates.flatten = st.firsts := by
  simp [firstStates]

@[simp] theorem length_firstStates : st.firstStates.length = 1 := rfl

@[simp] theorem length_firsts : st.firsts.length = st.intervals.length :=
  length_starts 0 st.intervals

@[simp] theorem length_lasts : st.lasts.length = st.intervals.length :=
  length_ends 0 st.intervals

@[simp] theorem length_stateIntervals : st.stateIntervals.length = st.numStates :=
  length_labels st.intervals

theorem firsts_lt {s : ℕ} (h : s ∈ st.firsts) : s < st.numStates :=
  lt_of_mem_starts st.intervals_pos h

theorem succ_lt_numStates {s : ℕ} (h : s < st.numStates) (hl : s ∉ st.lasts) :
    s + 1 < st.numStates :=
  succ_lt st.intervals_pos h hl

theorem shortest_le {n : ℕ} (h : n ∈ st.intervals) : st.shortest ≤ n := by
  rw [shortest]
  cases hm : st.intervals.min? with
  | none => exact Nat.zero_le _
  | some m => exact (List.min?_eq_some_iff.mp hm).2 n h

theorem shortest_le_stateIntervals {i n : ℕ} (h : st.stateIntervals[i]? = some n) :
    st.shortest ≤ n :=
  shortest_le (mem_of_labels h)

end BarStateSpace

structure Transition where
  state : ℕ
  prev : ℕ
  prob : ℚ

/-- The dense beat transition model of a state space. Tempo changes lead from
the last state of a block to the first state of a block. -/
structure BarTransitionModel (st : BarStateSpace) where
  rows : List Transition
  from_last : ∀ t ∈ rows, t.prev ∈ st.lasts → t.state ∈ st.firsts

end BeatNet
