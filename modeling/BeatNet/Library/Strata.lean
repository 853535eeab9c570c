import Mathlib.Algebra.BigOperators.Group.Finset.Basic
import Mathlib.Algebra.Order.Field.Basic
import Mathlib.Data.List.Pairwise
import Mathlib.Tactic.Linarith

namespace BeatNet.Library.Strata

variable {K : Type*} [Field K] [LinearOrder K] [IsStrictOrderedRing K] {U : List K} {x u : K}
  {j : ℕ}

/-- One point in each of as many equal parts of the unit interval as there are points. -/
def Stratified (U : List K) : Prop :=
  ∀ (j : ℕ) (u : K), U[j]? = some u → j ≤ U.length * u ∧ U.length * u < j + 1

omit [Field K] [IsStrictOrderedRing K] in
theorem getElem?_le_iff (hU : U.Pairwise (· ≤ ·)) (hu : U[j]? = some u) :
    u ≤ x ↔ j < U.countP (· ≤ x) := by
  induction U generalizing j with
  | nil => cases hu
  | cons v U ih =>
    obtain ⟨hv, hU⟩ := List.pairwise_cons.mp hU
    by_cases hvx : v ≤ x
    · have hcount : (v :: U).countP (· ≤ x) = U.countP (· ≤ x) + 1 := by
        simp only [List.countP_cons, hvx, decide_true, if_true]
      rw [hcount]
      cases j with
      | zero =>
        rw [List.getElem?_cons_zero, Option.some.injEq] at hu
        subst hu
        simp [hvx]
      | succ j =>
        rw [List.getElem?_cons_succ] at hu
        rw [ih hU hu, Nat.succ_lt_succ_iff]
    · have hall : ∀ y ∈ v :: U, ¬ y ≤ x := by
        intro y hy hyx
        rcases List.mem_cons.mp hy with rfl | hy
        · exact hvx hyx
        · exact hvx ((hv y hy).trans hyx)
      have hzero : (v :: U).countP (· ≤ x) = 0 := by
        simpa only [List.countP_eq_zero, decide_eq_true_eq] using hall
      have hux := hall u (List.mem_of_getElem? hu)
      simp only [hzero, hux, Nat.not_lt_zero]

theorem Stratified.pairwise (h : Stratified U) : U.Pairwise (· ≤ ·) := by
  rw [List.pairwise_iff_getElem]
  intro i j hi hj hij
  have hlow := (h i U[i] (List.getElem?_eq_getElem hi)).2
  have hhigh := (h j U[j] (List.getElem?_eq_getElem hj)).1
  have hle : (i : K) + 1 ≤ j := by exact_mod_cast hij
  have hpos : (0 : K) < U.length := Nat.cast_pos.mpr (by omega)
  exact (lt_of_mul_lt_mul_left ((hlow.trans_le hle).trans_le hhigh) hpos.le).le

theorem Stratified.countP_le (h : Stratified U) (hx : 0 ≤ x) :
    (U.countP (· ≤ x) : K) ≤ U.length * x + 1 := by
  have hprod : 0 ≤ (U.length : K) * x := mul_nonneg (Nat.cast_nonneg _) hx
  cases hcount : U.countP (· ≤ x) with
  | zero =>
    rw [Nat.cast_zero]
    linarith
  | succ n =>
    have hn : n < U.length := by
      have hle := List.countP_le_length (p := (· ≤ x)) (l := U)
      omega
    have hu := List.getElem?_eq_getElem hn
    have hle : U[n] ≤ x := (getElem?_le_iff h.pairwise hu).mpr (by omega)
    have hmul := mul_le_mul_of_nonneg_left hle (Nat.cast_nonneg (α := K) U.length)
    have hlow := (h n U[n] hu).1
    push_cast
    linarith

theorem Stratified.lt_countP (h : Stratified U) (hx : x ≤ 1) :
    (U.length : K) * x < U.countP (· ≤ x) + 1 := by
  rcases Nat.lt_or_ge (U.countP (· ≤ x)) U.length with hlt | hge
  · have hu := List.getElem?_eq_getElem hlt
    have hgt : x < U[U.countP (· ≤ x)] := by
      rw [← not_le, getElem?_le_iff h.pairwise hu]
      exact lt_irrefl _
    have hmul := mul_le_mul_of_nonneg_left hgt.le (Nat.cast_nonneg (α := K) U.length)
    exact hmul.trans_lt (h _ _ hu).2
  · have hcast : (U.length : K) ≤ U.countP (· ≤ x) := Nat.cast_le.mpr hge
    have hmul := mul_le_mul_of_nonneg_left hx (Nat.cast_nonneg (α := K) U.length)
    linarith

/-- How much of one of `n` equal parts of the unit interval comes before a point. -/
def within (n j : ℕ) (x : K) : K := max 0 (min (1 / n) (x - j * (1 / n)))

theorem within_zero (n j : ℕ) : within n j (0 : K) = 0 := by
  have hpart : (0 : K) ≤ j * (1 / n) :=
    mul_nonneg j.cast_nonneg (div_nonneg zero_le_one n.cast_nonneg)
  rw [within, zero_sub]
  exact max_eq_left ((min_le_right _ _).trans (neg_nonpos.mpr hpart))

theorem within_one {n : ℕ} (hj : j < n) : within n j (1 : K) = 1 / n := by
  have hpos : (0 : K) < n := Nat.cast_pos.mpr (by omega)
  have hle : ((j : K) + 1) * (1 / n) ≤ n * (1 / n) :=
    mul_le_mul_of_nonneg_right (by exact_mod_cast hj) (div_nonneg zero_le_one hpos.le)
  rw [add_mul, one_mul, mul_one_div_cancel hpos.ne'] at hle
  rw [within, min_eq_left (le_sub_iff_add_le'.mpr hle)]
  exact max_eq_right (div_nonneg zero_le_one hpos.le)

theorem within_mono (n j : ℕ) : Monotone (within n j : K → K) := fun _ _ h ↦
  max_le_max le_rfl (min_le_min le_rfl (sub_le_sub_right h _))

theorem le_within_iff {n : ℕ} (hpos : 0 < u) (hlt : u < 1 / n) :
    u ≤ within n j x ↔ u + j * (1 / n) ≤ x := by
  rw [within, le_max_iff, le_min_iff, le_sub_iff_add_le]
  exact ⟨fun h ↦ (h.resolve_left hpos.not_ge).2, fun h ↦ .inr ⟨hlt.le, h⟩⟩

theorem sum_within_of_le (hx : 0 ≤ x) (n m : ℕ) :
    ∑ j ∈ Finset.range m, within n j x = min x (m * (1 / n)) := by
  have hpart : (0 : K) ≤ 1 / n := div_nonneg zero_le_one n.cast_nonneg
  induction m with
  | zero =>
    rw [Finset.sum_range_zero, Nat.cast_zero, zero_mul]
    exact (min_eq_right hx).symm
  | succ m ih =>
    rw [Finset.sum_range_succ, ih, within, Nat.cast_succ, add_mul, one_mul]
    rcases le_total x (m * (1 / n)) with hle | hle
    · rw [min_eq_left hle, min_eq_left (hle.trans (le_add_of_nonneg_right hpart)),
        max_eq_left ((min_le_right _ _).trans (sub_nonpos.mpr hle)), add_zero]
    · rw [min_eq_right hle, max_eq_right (le_min hpart (sub_nonneg.mpr hle)), ← min_add_add_left,
        add_sub_cancel, min_comm]

theorem sum_within {n : ℕ} (hn : 0 < n) (hx : 0 ≤ x) (hx1 : x ≤ 1) :
    ∑ j ∈ Finset.range n, within n j x = x := by
  have hcast : (n : K) ≠ 0 := Nat.cast_ne_zero.mpr hn.ne'
  rw [sum_within_of_le hx, mul_one_div_cancel hcast, min_eq_left hx1]

theorem countP_lt_succ (l : List ℕ) (i : ℕ) :
    l.countP (· < i + 1) = l.countP (· < i) + l.count i := by
  induction l with
  | nil => rfl
  | cons n l ih =>
    simp only [List.countP_cons, List.count_cons, ih, decide_eq_true_eq, beq_iff_eq]
    split_ifs <;> omega

end BeatNet.Library.Strata
