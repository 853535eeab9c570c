import Mathlib.Data.List.Range
import Mathlib.Algebra.Order.Ring.Int

namespace BeatNet.Library.Windows

variable {α : Type}

def sample (x : List α) (k : ℤ) : Option α := if 0 ≤ k then x[k.toNat]? else none

/-- A window onto a signal, padded where it reaches beyond the signal. -/
def window (x : List α) (start : ℤ) (width : ℕ) : List (Option α) :=
  (List.range width).map fun j : ℕ ↦ sample x (start + j)

theorem window_eq_iff {x y : List α} {s t : ℤ} {width : ℕ} :
    window x s width = window y t width ↔
      ∀ j < width, sample x (s + j) = sample y (t + j) := by
  simp [window, List.map_inj_left]

theorem sample_range {n m : ℕ} (h : m < n) : sample (List.range n) m = some m := by
  rw [sample, if_pos (Int.natCast_nonneg m), Int.toNat_natCast, List.getElem?_range h]

theorem sample_range_eq_some {n m : ℕ} {k : ℤ} (h : sample (List.range n) k = some m) :
    k = m := by
  rw [sample] at h
  split_ifs at h with h0
  obtain ⟨_, hm⟩ := List.getElem?_eq_some_iff.mp h
  rw [List.getElem_range] at hm
  omega

theorem sample_drop_take (x : List α) (a b : ℕ) (k : ℤ) :
    sample ((x.take b).drop a) k = if 0 ≤ k ∧ a + k < b then sample x (a + k) else none := by
  simp only [sample]
  by_cases h0 : 0 ≤ k
  · rw [if_pos h0, List.getElem?_drop, List.getElem?_take]
    have hab : (a + k).toNat = a + k.toNat := by omega
    have hlt : a + k.toNat < b ↔ 0 ≤ k ∧ a + k < b := by omega
    have hnonneg : 0 ≤ a + k := by omega
    simp only [hlt, hab, if_pos hnonneg]
  · rw [if_neg h0, if_neg (by omega)]

theorem window_drop_take (x : List α) {a b width : ℕ} {start : ℤ} (h0 : 0 ≤ start)
    (hb : a + start + width ≤ b) :
    window ((x.take b).drop a) start width = window x (a + start) width := by
  rw [window_eq_iff]
  intro j hj
  rw [sample_drop_take, if_pos (by omega), add_assoc]

theorem sample_drop (x : List α) (a : ℕ) {k : ℤ} (h0 : 0 ≤ k) :
    sample (x.drop a) k = sample x (a + k) := by
  rw [sample, sample, if_pos h0, if_pos (by omega), List.getElem?_drop]
  congr 1
  omega

theorem sample_append_right (x y : List α) {k : ℤ} (h : x.length ≤ k) :
    sample (x ++ y) k = sample y (k - x.length) := by
  rw [sample, sample, if_pos (by omega), if_pos (by omega), List.getElem?_append_right (by omega)]
  congr 1
  omega

theorem sample_inj {x : List α} (hx : x.Nodup) {j k : ℤ} (h0 : 0 ≤ k) (hk : k < x.length)
    (h : sample x j = sample x k) : j = k := by
  have hk' : k.toNat < x.length := by omega
  rw [sample, sample, if_pos h0] at h
  split_ifs at h with hj0
  · have hidx := (List.getElem?_inj hk' hx).mp h.symm
    omega
  · rw [List.getElem?_eq_getElem hk'] at h
    cases h

end BeatNet.Library.Windows
