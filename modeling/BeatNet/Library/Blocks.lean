import Mathlib.Algebra.GroupWithZero.Nat
import Mathlib.Algebra.Order.BigOperators.Group.List
import Mathlib.Algebra.Order.Group.Nat
import Mathlib.Tactic.Common

namespace BeatNet.Library.Blocks

/-- First indices of consecutive blocks of the given lengths, laid out from `c`. -/
def starts : ℕ → List ℕ → List ℕ
  | _, [] => []
  | c, n :: ns => c :: starts (c + n) ns

def ends : ℕ → List ℕ → List ℕ
  | _, [] => []
  | c, n :: ns => (c + n - 1) :: ends (c + n) ns

def labels (ns : List ℕ) : List ℕ := ns.flatMap fun n ↦ List.replicate n n

@[simp] theorem length_starts (c : ℕ) (ns : List ℕ) : (starts c ns).length = ns.length := by
  induction ns generalizing c with
  | nil => rfl
  | cons n ns ih => simp [starts, ih]

@[simp] theorem length_ends (c : ℕ) (ns : List ℕ) : (ends c ns).length = ns.length := by
  induction ns generalizing c with
  | nil => rfl
  | cons n ns ih => simp [ends, ih]

@[simp] theorem length_labels (ns : List ℕ) : (labels ns).length = ns.sum := by
  simp [labels, List.length_flatMap]

theorem mem_of_labels {ns : List ℕ} {i n : ℕ} (h : (labels ns)[i]? = some n) : n ∈ ns := by
  obtain ⟨m, hm, hn⟩ := List.mem_flatMap.mp (List.mem_of_getElem? h)
  rw [List.eq_of_mem_replicate hn]
  exact hm

theorem mem_labels {ns : List ℕ} {n : ℕ} (hpos : 0 < n) : n ∈ labels ns ↔ n ∈ ns := by
  apply Iff.intro
  · intro h
    obtain ⟨i, hi⟩ := List.getElem?_of_mem h
    exact mem_of_labels hi
  · intro h
    exact List.mem_flatMap.mpr ⟨n, h, List.mem_replicate.mpr ⟨hpos.ne', rfl⟩⟩

theorem exists_label {ns : List ℕ} {n last : ℕ} (hn : n ∈ ns) (hpos : 0 < n)
    (hlast : ns.getLast? = some last) (hlastpos : 0 < last) (hne : n ≠ last) :
    ∃ p, p + 1 < ns.sum ∧ (labels ns)[p]? = some n := by
  obtain ⟨p, hp⟩ := List.getElem?_of_mem ((mem_labels hpos).mpr hn)
  have hlt := (List.getElem?_eq_some_iff.mp hp).1
  rw [length_labels] at hlt
  refine ⟨p, ?_, hp⟩
  by_contra hnot
  obtain ⟨init, rfl⟩ := List.getLast?_eq_some_iff.mp hlast
  have hsum : (init ++ [last]).sum = init.sum + last := by simp
  have hsplit : labels (init ++ [last]) = labels init ++ List.replicate last last := by
    simp [labels]
  rw [hsplit, List.getElem?_append_right (by rw [length_labels]; omega), length_labels,
    List.getElem?_replicate] at hp
  split_ifs at hp
  exact hne (Option.some.inj hp).symm

theorem starts_eq (c : ℕ) (ns : List ℕ) :
    starts c ns = (List.range ns.length).map fun b ↦ c + (ns.take b).sum := by
  induction ns generalizing c with
  | nil => rfl
  | cons n ns ih =>
    rw [starts, ih, List.length_cons, List.range_succ_eq_map, List.map_cons, List.map_map]
    simp [Function.comp_def, add_assoc]

theorem ends_eq (c : ℕ) (ns : List ℕ) :
    ends c ns = (List.range ns.length).map fun b ↦ c + (ns.take (b + 1)).sum - 1 := by
  induction ns generalizing c with
  | nil => rfl
  | cons n ns ih =>
    rw [ends, ih, List.length_cons, List.range_succ_eq_map, List.map_cons, List.map_map]
    simp [Function.comp_def, add_assoc]

section Entries

variable {ns : List ℕ} {b b' n k i s : ℕ}

theorem sum_take_succ (h : ns[b]? = some n) : (ns.take (b + 1)).sum = (ns.take b).sum + n := by
  rw [List.take_add_one, h, List.sum_append]
  simp

theorem sum_take_le (ns : List ℕ) (h : b ≤ b') : (ns.take b).sum ≤ (ns.take b').sum :=
  (List.take_prefix_take_left h).sublist.sum_le_sum fun _ _ ↦ Nat.zero_le _

theorem mem_starts : s ∈ starts 0 ns ↔ ∃ b n, ns[b]? = some n ∧ s = (ns.take b).sum := by
  simp only [starts_eq, List.mem_map, List.mem_range, zero_add]
  apply Iff.intro
  · rintro ⟨b, hb, rfl⟩
    exact ⟨b, ns[b], List.getElem?_eq_getElem hb, rfl⟩
  · rintro ⟨b, n, hn, rfl⟩
    exact ⟨b, (List.getElem?_eq_some_iff.mp hn).1, rfl⟩

theorem mem_ends : s ∈ ends 0 ns ↔ ∃ b n, ns[b]? = some n ∧ s = (ns.take b).sum + n - 1 := by
  simp only [ends_eq, List.mem_map, List.mem_range, zero_add]
  apply Iff.intro
  · rintro ⟨b, hb, rfl⟩
    have hn := List.getElem?_eq_getElem hb
    exact ⟨b, ns[b], hn, by rw [sum_take_succ hn]⟩
  · rintro ⟨b, n, hn, rfl⟩
    exact ⟨b, (List.getElem?_eq_some_iff.mp hn).1, by rw [sum_take_succ hn]⟩

/-- Index `i` is entry `k` of block `b`, which has `n` entries. -/
structure At (ns : List ℕ) (b n k i : ℕ) : Prop where
  block : ns[b]? = some n
  entry : k < n
  index : i = (ns.take b).sum + k

theorem mem_starts_iff_at (hpos : ∀ n ∈ ns, 0 < n) : s ∈ starts 0 ns ↔ ∃ b n, At ns b n 0 s := by
  rw [mem_starts]
  apply Iff.intro
  · rintro ⟨b, n, hn, rfl⟩
    exact ⟨b, n, hn, hpos n (List.mem_of_getElem? hn), rfl⟩
  · rintro ⟨b, n, h⟩
    exact ⟨b, n, h.block, h.index⟩

theorem exists_at (h : i < ns.sum) : ∃ b n k, At ns b n k i := by
  induction ns generalizing i with
  | nil => cases h
  | cons m ns ih =>
    by_cases hi : i < m
    · exact ⟨0, m, i, rfl, hi, by simp⟩
    · rw [List.sum_cons] at h
      obtain ⟨b, n, k, hat⟩ := ih (i := i - m) (by omega)
      have hindex := hat.index
      refine ⟨b + 1, n, k, hat.block, hat.entry, ?_⟩
      rw [List.take_succ_cons, List.sum_cons]
      omega

namespace At

variable (h : At ns b n k i)
include h

theorem lt_sum : i < ns.sum := by
  have hindex := h.index
  have hentry := h.entry
  have hle : (ns.take (b + 1)).sum ≤ ns.sum :=
    (List.take_sublist _ _).sum_le_sum fun _ _ ↦ Nat.zero_le _
  rw [sum_take_succ h.block] at hle
  omega

theorem next (hk : k + 1 < n) : At ns b n (k + 1) (i + 1) :=
  ⟨h.block, hk, by rw [h.index, add_assoc]⟩

theorem start_le (hs : s ∈ starts 0 ns) (hsi : s ≤ i) : s + k ≤ i := by
  obtain ⟨b', n', hn', rfl⟩ := mem_starts.mp hs
  have hindex := h.index
  have hentry := h.entry
  rcases Nat.lt_or_ge b b' with hb | hb
  · have hle := sum_take_le ns (Nat.succ_le_of_lt hb)
    rw [Nat.succ_eq_add_one, sum_take_succ h.block] at hle
    omega
  · have hle := sum_take_le ns hb
    omega

theorem mem_ends_iff (hpos : ∀ n ∈ ns, 0 < n) : i ∈ ends 0 ns ↔ k + 1 = n := by
  have hindex := h.index
  have hentry := h.entry
  rw [mem_ends]
  apply Iff.intro
  · rintro ⟨b', n', hn', hend⟩
    have hpos' := hpos n' (List.mem_of_getElem? hn')
    rcases lt_trichotomy b b' with hb | rfl | hb
    · have hle := sum_take_le ns (Nat.succ_le_of_lt hb)
      rw [Nat.succ_eq_add_one, sum_take_succ h.block] at hle
      omega
    · rw [h.block, Option.some.injEq] at hn'
      omega
    · have hle := sum_take_le ns (Nat.succ_le_of_lt hb)
      rw [Nat.succ_eq_add_one, sum_take_succ hn'] at hle
      omega
  · intro hk
    exact ⟨b, n, h.block, by omega⟩

theorem getElem?_flatMap {α : Type*} (f : ℕ → ℕ → α) :
    (ns.flatMap fun n ↦ (List.range n).map (f n))[i]? = some (f n k) := by
  obtain ⟨hblock, hentry, hindex⟩ := h
  induction ns generalizing b i with
  | nil => cases hblock
  | cons m ns ih =>
    rw [List.flatMap_cons]
    cases b with
    | zero =>
      rw [List.getElem?_cons_zero, Option.some.injEq] at hblock
      subst hblock
      have hik : i = k := by simpa using hindex
      subst hik
      rw [List.getElem?_append_left (by simpa using hentry), List.getElem?_map,
        List.getElem?_range hentry, Option.map_some]
    | succ b =>
      rw [List.take_succ_cons, List.sum_cons] at hindex
      rw [List.getElem?_append_right (by simp; omega), List.length_map, List.length_range]
      exact ih hblock (by omega)

end At

theorem starts_add_lt_iff :
    (∀ s ∈ starts 0 ns, s + i < ns.sum) ↔ ∀ n, ns.getLast? = some n → i < n := by
  suffices h : ∀ c, (∀ s ∈ starts c ns, s + i < c + ns.sum) ↔
      ∀ n, ns.getLast? = some n → i < n by simpa using h 0
  intro c
  induction ns generalizing c with
  | nil => simp [starts]
  | cons m ns ih =>
    cases hns : ns with
    | nil => simp [starts]
    | cons m' ns' =>
      have hlast : (m :: ns).getLast? = ns.getLast? := by rw [hns, List.getLast?_cons_cons]
      have hfirst : c + m ∈ starts (c + m) ns := by simp [hns, starts]
      rw [← hns, hlast, ← ih (c + m), starts, List.forall_mem_cons, List.sum_cons, ← add_assoc]
      apply Iff.intro
      · exact fun h ↦ h.2
      · intro h
        have hbound := h _ hfirst
        exact ⟨by omega, h⟩

end Entries

section Positive

variable {ns : List ℕ} {i s : ℕ} (hpos : ∀ n ∈ ns, 0 < n)
include hpos

theorem lt_of_mem_starts (hs : s ∈ starts 0 ns) : s < ns.sum := by
  obtain ⟨b, n, h⟩ := (mem_starts_iff_at hpos).mp hs
  exact h.lt_sum

theorem succ_lt (hi : i < ns.sum) (he : i ∉ ends 0 ns) : i + 1 < ns.sum := by
  obtain ⟨b, n, k, h⟩ := exists_at hi
  have hk := h.entry
  rw [h.mem_ends_iff hpos] at he
  exact (h.next (by omega)).lt_sum

end Positive

end BeatNet.Library.Blocks
