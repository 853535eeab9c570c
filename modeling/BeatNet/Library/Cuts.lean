import Mathlib.Data.List.Basic
import Mathlib.Algebra.Order.Group.Nat
import Mathlib.Algebra.Order.BigOperators.Group.List

namespace BeatNet.Library.Cuts

variable {α : Type} {n : ℕ} {pieces : List (List α)}

theorem flatten_map_drop_sublist (n : ℕ) (pieces : List (List α)) :
    (pieces.map (List.drop n)).flatten.Sublist (pieces.flatten.drop n) := by
  induction pieces with
  | nil => simp
  | cons l pieces ih =>
    rw [List.map_cons, List.flatten_cons, List.flatten_cons, List.drop_append]
    have hdrop : (pieces.flatten.drop n).Sublist (pieces.flatten.drop (n - l.length)) :=
      List.drop_sublist_drop_left pieces.flatten (Nat.sub_le n l.length)
    exact (List.Sublist.refl (l.drop n)).append (ih.trans hdrop)

theorem length_flatten_map_drop_le (n : ℕ) (pieces : List (List α)) :
    (pieces.map (List.drop n)).flatten.length ≤ pieces.flatten.length - n := by
  have h := (flatten_map_drop_sublist n pieces).length_le
  rwa [List.length_drop] at h

theorem filter_ne_nil_length : (pieces.filter (· ≠ [])).length = 0 ↔ pieces.flatten = [] := by
  rw [List.length_eq_zero_iff, List.filter_eq_nil_iff, List.flatten_eq_nil_iff]
  simp

theorem length_flatten_map_drop_iff :
    (pieces.map (List.drop n)).flatten.length = pieces.flatten.length - n ↔
      n = 0 ∨ pieces.flatten.length ≤ n ∨ (pieces.filter (· ≠ [])).length ≤ 1 := by
  induction pieces with
  | nil => simp
  | cons l pieces ih =>
    have hle := length_flatten_map_drop_le n pieces
    by_cases hl : l = []
    · subst hl
      simpa using ih
    · have hpos : 0 < l.length := List.length_pos_iff.mpr hl
      have hrest : (pieces.filter (· ≠ [])).length = 0 ↔ pieces.flatten.length = 0 := by
        rw [filter_ne_nil_length, List.length_eq_zero_iff]
      have hfilter : ((l :: pieces).filter (· ≠ [])).length =
          (pieces.filter (· ≠ [])).length + 1 := by
        rw [List.filter_cons_of_pos (by simpa using hl), List.length_cons]
      have hnone : n = 0 → (pieces.map (List.drop n)).flatten.length =
          pieces.flatten.length - n := fun h ↦ ih.mpr (.inl h)
      rw [List.map_cons, List.flatten_cons, List.flatten_cons, List.length_append,
        List.length_append, List.length_drop, hfilter]
      omega

/-- Dropping from every piece is dropping from the whole exactly when nothing
is dropped, everything is dropped, or only one piece holds anything. -/
theorem flatten_map_drop_eq_iff :
    (pieces.map (List.drop n)).flatten = pieces.flatten.drop n ↔
      n = 0 ∨ pieces.flatten.length ≤ n ∨ (pieces.filter (· ≠ [])).length ≤ 1 := by
  rw [← length_flatten_map_drop_iff]
  apply Iff.intro
  · intro h
    rw [h, List.length_drop]
  · intro h
    refine (flatten_map_drop_sublist n pieces).eq_of_length ?_
    rw [h, List.length_drop]

theorem flatten_eq_flatten_iff {others : List (List α)} (hcount : pieces.length = others.length)
    (hpieces : ∀ l ∈ pieces, l.length = n) (hothers : ∀ l ∈ others, l.length ≤ n) :
    pieces.flatten = others.flatten ↔ pieces = others := by
  refine ⟨fun h ↦ ?_, congrArg _⟩
  have hsum : ∀ ls : List (List α), (∀ l ∈ ls, l.length ≤ n) →
      ls.flatten.length ≤ ls.length * n := by
    intro ls hls
    rw [List.length_flatten]
    simpa using List.sum_le_card_nsmul (ls.map List.length) n (by simpa using hls)
  induction pieces generalizing others with
  | nil => exact (List.length_eq_zero_iff.mp hcount.symm).symm
  | cons l pieces ih =>
    cases others with
    | nil => cases hcount
    | cons l' others =>
      obtain ⟨hl, htail⟩ := List.forall_mem_cons.mp hpieces
      obtain ⟨hl', htail'⟩ := List.forall_mem_cons.mp hothers
      have hcount' : pieces.length = others.length := Nat.succ.inj hcount
      have hlen := congrArg List.length h
      have hle := hsum others htail'
      have heq : pieces.flatten.length = pieces.length * n := by
        rw [List.length_flatten, List.map_congr_left htail]
        simp
      rw [List.flatten_cons, List.flatten_cons, List.length_append, List.length_append, heq,
        hcount'] at hlen
      obtain ⟨rfl, hrest⟩ := List.append_inj h (by omega)
      rw [ih hcount' htail htail' hrest]

end BeatNet.Library.Cuts
