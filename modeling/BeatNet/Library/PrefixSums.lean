import Mathlib.Algebra.BigOperators.Group.List.Basic
import Mathlib.Algebra.Order.BigOperators.Group.List
import Mathlib.Order.Basic

namespace BeatNet.Library.PrefixSums

variable {M α : Type}

def prefixSums [Zero M] [Add M] (w : List M) : List M := (w.scanl (· + ·) 0).tail

/-- The first place before which every element is smaller than `v`. -/
def insertionPoint [LT α] [DecidableLT α] (a : List α) (v : α) : ℕ :=
  (a.takeWhile (· < v)).length

section Sums

variable [AddMonoid M]

theorem length_prefixSums (w : List M) : (prefixSums w).length = w.length := by
  simp [prefixSums]

theorem drop_scanl {c : M} {w : List M} {i : ℕ} (hi : i ≤ w.length) :
    (w.scanl (· + ·) c).drop i = (w.drop i).scanl (· + ·) (c + (w.take i).sum) := by
  induction w generalizing c i with
  | nil =>
    cases Nat.le_zero.mp hi
    simp
  | cons x w ih =>
    cases i with
    | zero => simp
    | succ i =>
      have h := ih (c := c + x) (Nat.le_of_succ_le_succ hi)
      simpa [List.scanl_cons, add_assoc] using h

theorem scanl_getElem? {c : M} {w : List M} {i : ℕ} (hi : i ≤ w.length) :
    (w.scanl (· + ·) c)[i]? = some (c + (w.take i).sum) := by
  rw [← List.head?_drop, drop_scanl hi]
  simp

theorem prefixSums_getElem? {w : List M} {i : ℕ} (hi : i < w.length) :
    (prefixSums w)[i]? = some (w.take (i + 1)).sum := by
  rw [prefixSums, List.getElem?_tail, scanl_getElem? hi, zero_add]

theorem sum_mem_prefixSums {w : List M} (hw : w ≠ []) : w.sum ∈ prefixSums w := by
  have hpos := List.length_pos_iff.mpr hw
  have hlast := prefixSums_getElem? (w := w) (i := w.length - 1) (by omega)
  rw [Nat.sub_add_cancel hpos, List.take_length] at hlast
  exact List.mem_of_getElem? hlast

end Sums

section Ordered

variable [AddCommMonoid M] [PartialOrder M] [IsOrderedAddMonoid M]

theorem le_of_mem_scanl {c x : M} {w : List M} (hw : ∀ y ∈ w, 0 ≤ y)
    (hx : x ∈ w.scanl (· + ·) c) : c ≤ x := by
  obtain ⟨i, hi, heq⟩ := List.mem_iff_getElem.mp hx
  have hlen : i ≤ w.length := by simpa [Nat.lt_succ_iff] using hi
  have h := scanl_getElem? (c := c) hlen
  rw [List.getElem?_eq_getElem hi, heq, Option.some.injEq] at h
  rw [h]
  exact le_add_of_nonneg_right (List.sum_nonneg fun y hy ↦ hw y (List.mem_of_mem_take hy))

theorem pairwise_prefixSums {w : List M} (hw : ∀ y ∈ w, 0 ≤ y) :
    (prefixSums w).Pairwise (· ≤ ·) := by
  have hscan : ∀ c, (w.scanl (· + ·) c).Pairwise (· ≤ ·) := by
    induction w with
    | nil => simp
    | cons x w ih =>
      obtain ⟨hx, hrest⟩ := List.forall_mem_cons.mp hw
      intro c
      rw [List.scanl_cons, List.pairwise_cons]
      exact ⟨fun y hy ↦ (le_add_of_nonneg_right hx).trans (le_of_mem_scanl hrest hy), ih hrest _⟩
  exact (hscan 0).tail

theorem sum_pos_iff_exists {w : List M} (hw : ∀ y ∈ w, 0 ≤ y) : 0 < w.sum ↔ ∃ y ∈ w, 0 < y := by
  apply Iff.intro
  · intro hsum
    by_contra hnone
    have hzero : w.sum = 0 := by
      apply List.sum_eq_zero
      intro y hy
      by_contra hne
      exact hnone ⟨y, hy, lt_of_le_of_ne (hw y hy) (Ne.symm hne)⟩
    exact hsum.ne' hzero
  · intro h
    obtain ⟨y, hy, hpos⟩ := h
    exact hpos.trans_le (List.single_le_sum hw y hy)

end Ordered

section Insertion

variable [LinearOrder α]

theorem insertionPoint_lt {a : List α} {v x : α} (hx : x ∈ a) (hv : v ≤ x) :
    insertionPoint a v < a.length := by
  induction a with
  | nil => cases hx
  | cons y a ih =>
    by_cases hy : y < v
    · have hxa : x ∈ a := by
        rcases List.mem_cons.mp hx with rfl | h
        · exact absurd hy (not_lt.mpr hv)
        · exact h
      have h := ih hxa
      simp only [insertionPoint, List.takeWhile_cons, hy, decide_true, if_true,
        List.length_cons] at h ⊢
      omega
    · simp [insertionPoint, hy]

theorem insertionPoint_cons (x : α) (a : List α) (v : α) :
    insertionPoint (x :: a) v = if x < v then insertionPoint a v + 1 else 0 := by
  by_cases hx : x < v
  · simp [insertionPoint, hx]
  · simp [insertionPoint, hx]

theorem insertionPoint_le_iff {a : List α} (ha : a.Pairwise (· ≤ ·)) {i : ℕ} {x v : α}
    (hx : a[i]? = some x) : insertionPoint a v ≤ i ↔ v ≤ x := by
  induction a generalizing i with
  | nil => cases hx
  | cons y a ih =>
    obtain ⟨hy, ha⟩ := List.pairwise_cons.mp ha
    rw [insertionPoint_cons]
    cases i with
    | zero =>
      rw [List.getElem?_cons_zero, Option.some.injEq] at hx
      subst hx
      by_cases hlt : y < v
      · simp [hlt]
      · simp [hlt, not_lt.mp hlt]
    | succ i =>
      rw [List.getElem?_cons_succ] at hx
      by_cases hlt : y < v
      · rw [if_pos hlt, Nat.add_le_add_iff_right, ih ha hx]
      · have hyx := hy x (List.mem_of_getElem? hx)
        simp [hlt, (not_lt.mp hlt).trans hyx]

theorem le_iff_of_insertionPoint_eq {a : List α} (ha : a.Pairwise (· ≤ ·)) {u v x : α}
    (h : insertionPoint a u = insertionPoint a v) (hx : x ∈ a) : u ≤ x ↔ v ≤ x := by
  obtain ⟨i, hi⟩ := List.mem_iff_getElem?.mp hx
  rw [← insertionPoint_le_iff ha hi, h, insertionPoint_le_iff ha hi]

theorem insertionPoint_mono (a : List α) {u v : α} (h : u ≤ v) :
    insertionPoint a u ≤ insertionPoint a v := by
  induction a with
  | nil => exact le_rfl
  | cons x a ih =>
    rw [insertionPoint_cons, insertionPoint_cons]
    by_cases hx : x < u
    · rw [if_pos hx, if_pos (hx.trans_le h)]
      exact Nat.succ_le_succ ih
    · rw [if_neg hx]
      exact Nat.zero_le _

theorem insertionPoint_congr {a : List α} {u v : α} (h : ∀ x ∈ a, x < u ↔ x < v) :
    insertionPoint a u = insertionPoint a v := by
  induction a with
  | nil => rfl
  | cons x a ih =>
    obtain ⟨hx, hrest⟩ := List.forall_mem_cons.mp h
    rw [insertionPoint_cons, insertionPoint_cons, ih hrest]
    simp only [hx]

theorem insertionPoint_drop (a : List α) {u v : α} (h : u ≤ v) :
    insertionPoint a u + insertionPoint (a.drop (insertionPoint a u)) v = insertionPoint a v := by
  induction a with
  | nil => rfl
  | cons x a ih =>
    rw [insertionPoint_cons, insertionPoint_cons]
    by_cases hx : x < u
    · rw [if_pos hx, if_pos (hx.trans_le h), List.drop_succ_cons, Nat.add_right_comm, ih]
    · rw [if_neg hx, Nat.zero_add, List.drop_zero, insertionPoint_cons]

end Insertion

end BeatNet.Library.PrefixSums
