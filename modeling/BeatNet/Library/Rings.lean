import Mathlib.Data.List.DropRight

namespace BeatNet.Library.Rings

variable {α : Type}

/-- The cells hold the end of a stream: going back from the write position one
meets its last elements, the newest first. -/
def Holds (cells : List α) (pos : ℕ) (stream : List α) : Prop :=
  ∀ j, j < cells.length → j < stream.length →
    cells[(pos + cells.length - 1 - j) % cells.length]? = stream[stream.length - 1 - j]?

theorem back_eq {n pos j : ℕ} (hpos : pos < n) (hj : j < n) :
    (pos + n - 1 - j) % n = if j < pos then pos - 1 - j else pos + n - 1 - j := by
  split_ifs with h
  · rw [show pos + n - 1 - j = pos - 1 - j + n by omega, Nat.add_mod_right]
    exact Nat.mod_eq_of_lt (by omega)
  · exact Nat.mod_eq_of_lt (by omega)

theorem next_eq {n pos : ℕ} (hpos : pos < n) :
    (pos + 1) % n = if pos + 1 = n then 0 else pos + 1 := by
  split_ifs with h
  · rw [h, Nat.mod_self]
  · exact Nat.mod_eq_of_lt (by omega)

theorem next_lt {n pos : ℕ} (hpos : pos < n) : (pos + 1) % n < n := Nat.mod_lt _ (by omega)

namespace Holds

variable {cells stream : List α} {pos : ℕ}

theorem nil : Holds cells pos [] := fun _ _ h ↦ absurd h (Nat.not_lt_zero _)

theorem write (h : Holds cells pos stream) (hpos : pos < cells.length) (x : α) :
    Holds (cells.set pos x) ((pos + 1) % cells.length) (stream ++ [x]) := by
  intro j hj hs
  rw [List.length_set] at hj ⊢
  rw [List.length_append, List.length_singleton] at hs ⊢
  have hnext := next_lt hpos
  rw [back_eq hnext hj, next_eq hpos]
  cases j with
  | zero =>
    have hcell : (if 0 < (if pos + 1 = cells.length then 0 else pos + 1) then
        (if pos + 1 = cells.length then 0 else pos + 1) - 1 - 0
        else (if pos + 1 = cells.length then 0 else pos + 1) + cells.length - 1 - 0) = pos := by
      split_ifs <;> omega
    rw [hcell, List.getElem?_set_self hpos]
    simp
  | succ j =>
    have hold := h j (by omega) (by omega)
    rw [back_eq hpos (by omega)] at hold
    have hcell : (if j + 1 < (if pos + 1 = cells.length then 0 else pos + 1) then
        (if pos + 1 = cells.length then 0 else pos + 1) - 1 - (j + 1)
        else (if pos + 1 = cells.length then 0 else pos + 1) + cells.length - 1 - (j + 1)) =
        if j < pos then pos - 1 - j else pos + cells.length - 1 - j := by
      split_ifs <;> omega
    have hne : pos ≠ if j < pos then pos - 1 - j else pos + cells.length - 1 - j := by
      split_ifs <;> omega
    rw [hcell, List.getElem?_set_ne hne, hold, List.getElem?_append_left (by omega)]
    congr 1
    omega

theorem read (h : Holds cells pos stream) {k : ℕ} (hcells : k ≤ cells.length)
    (hstream : k ≤ stream.length) {i : ℕ} (hi : i < k) :
    cells[(pos + cells.length - k + i) % cells.length]? = (stream.rtake k)[i]? := by
  have hj := h (k - 1 - i) (by omega) (by omega)
  have hpos : pos + cells.length - 1 - (k - 1 - i) = pos + cells.length - k + i := by omega
  rw [hpos] at hj
  rw [hj, List.rtake, List.getElem?_drop]
  congr 1
  omega

end Holds

end BeatNet.Library.Rings
