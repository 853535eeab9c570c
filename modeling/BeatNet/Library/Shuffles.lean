import Mathlib.Data.List.Perm.Basic
import Mathlib.Order.Basic
import Mathlib.Order.Nat

namespace BeatNet.Library.Shuffles

variable {α : Type*} {r : α → α → Prop} {l l' : List α} {m : ℕ}

/-- Every member of a list takes a step, and the members are handed on in any order. -/
def Shuffled (r : α → α → Prop) (l l' : List α) : Prop :=
  ∃ images, List.Forall₂ r l images ∧ images.Perm l'

namespace Shuffled

theorem length_eq (h : Shuffled r l l') : l'.length = l.length := by
  obtain ⟨images, hstep, hperm⟩ := h
  rw [← hperm.length_eq, hstep.length_eq]

theorem exists_of_mem (h : Shuffled r l l') {x : α} (hx : x ∈ l') : ∃ y ∈ l, r y x := by
  obtain ⟨images, hstep, hperm⟩ := h
  obtain ⟨i, hi, rfl⟩ := List.mem_iff_getElem.mp (hperm.mem_iff.mpr hx)
  have hlen : i < l.length := by rwa [hstep.length_eq]
  exact ⟨l[i], List.getElem_mem hlen, hstep.get hlen hi⟩

theorem exists_image (h : Shuffled r l l') {y : α} (hy : y ∈ l) : ∃ x ∈ l', r y x := by
  obtain ⟨images, hstep, hperm⟩ := h
  obtain ⟨i, hi, rfl⟩ := List.mem_iff_getElem.mp hy
  have hlen : i < images.length := by rwa [← hstep.length_eq]
  exact ⟨images[i], hperm.mem_iff.mp (List.getElem_mem hlen), hstep.get hi hlen⟩

theorem of_split {p : α → Bool} {kept rest : List α} (hkept : List.Forall₂ r (l.filter p) kept)
    (hrest : List.Forall₂ r (l.filter fun x ↦ !p x) rest) : Shuffled r l (kept ++ rest) :=
  List.perm_comp_forall₂ (List.filter_append_perm p l).symm (List.rel_append hkept hrest)

end Shuffled

/-- One path for each member, through all lists up to the `m`-th. -/
structure Paths (r : α → α → Prop) (states : ℕ → List α) (m : ℕ) (paths : List (ℕ → α)) :
    Prop where
  start : paths.map (· 0) = states 0
  perm : ∀ j ≤ m, (paths.map (· j)).Perm (states j)
  step : ∀ path ∈ paths, ∀ j < m, r (path j) (path (j + 1))

theorem exists_extension {paths : List (ℕ → α)} {images : List α}
    (h : List.Forall₂ r (paths.map (· m)) images) :
    ∃ paths' : List (ℕ → α), paths'.map (· (m + 1)) = images ∧
      (∀ j ≤ m, paths'.map (· j) = paths.map (· j)) ∧
        ∀ path' ∈ paths', r (path' m) (path' (m + 1)) ∧
          ∃ path ∈ paths, ∀ j ≤ m, path' j = path j := by
  induction paths generalizing images with
  | nil =>
    cases h
    exact ⟨[], rfl, fun _ _ ↦ rfl, fun _ hmem ↦ absurd hmem List.not_mem_nil⟩
  | cons path paths ih =>
    cases h with
    | @cons _ x _ images hx hrest =>
      obtain ⟨paths', himages, hagree, hpaths⟩ := ih hrest
      let path' : ℕ → α := fun j ↦ if j = m + 1 then x else path j
      have hlast : path' (m + 1) = x := if_pos rfl
      have hbefore : ∀ j ≤ m, path' j = path j := fun j hj ↦ if_neg (by omega)
      refine ⟨path' :: paths', ?_, fun j hj ↦ ?_, ?_⟩
      · rw [List.map_cons, hlast, himages]
      · rw [List.map_cons, List.map_cons, hbefore j hj, hagree j hj]
      · intro q hq
        rcases List.mem_cons.mp hq with rfl | hq
        · refine ⟨?_, path, List.mem_cons_self, hbefore⟩
          rw [hlast, hbefore m le_rfl]
          exact hx
        · obtain ⟨hstep, p, hp, hsame⟩ := hpaths q hq
          exact ⟨hstep, p, List.mem_cons_of_mem _ hp, hsame⟩

theorem exists_paths {states : ℕ → List α}
    (h : ∀ j < m, Shuffled r (states j) (states (j + 1))) : ∃ paths, Paths r states m paths := by
  induction m with
  | zero =>
    have hstart : ((states 0).map fun x (_ : ℕ) ↦ x).map (· 0) = states 0 := by
      rw [List.map_map]
      exact List.map_id _
    refine ⟨_, hstart, fun j hj ↦ ?_, fun _ _ j hj ↦ absurd hj (Nat.not_lt_zero j)⟩
    rw [Nat.le_zero.mp hj, hstart]
  | succ m ih =>
    obtain ⟨paths, hpaths⟩ := ih fun j hj ↦ h j (by omega)
    obtain ⟨moved, hstep, hmoved⟩ := h m (Nat.lt_succ_self m)
    obtain ⟨images, himages, hperm⟩ := List.perm_comp_forall₂ (hpaths.perm m le_rfl) hstep
    obtain ⟨paths', hlast, hagree, hfollow⟩ := exists_extension himages
    refine ⟨paths', ?_, fun j hj ↦ ?_, fun path' hpath' j hj ↦ ?_⟩
    · rw [hagree 0 (Nat.zero_le m), hpaths.start]
    · rcases Nat.le_succ_iff.mp hj with hle | rfl
      · rw [hagree j hle]
        exact hpaths.perm j hle
      · rw [hlast]
        exact hperm.trans hmoved
    · obtain ⟨hnew, path, hpath, hsame⟩ := hfollow path' hpath'
      rcases Nat.lt_succ_iff_lt_or_eq.mp hj with hlt | rfl
      · rw [hsame j hlt.le, hsame (j + 1) hlt]
        exact hpaths.step path hpath j hlt
      · exact hnew

end BeatNet.Library.Shuffles
