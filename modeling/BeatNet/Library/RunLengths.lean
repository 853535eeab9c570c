import Mathlib.Data.List.Basic
import Mathlib.Data.List.Chain
import Mathlib.Order.Lattice

namespace BeatNet.Library.RunLengths

variable {α : Type} [DecidableEq α]

def push (x : α) : List (α × ℕ) → List (α × ℕ)
  | [] => [(x, 1)]
  | (y, n) :: rest => if x = y then (y, n + 1) :: rest else (x, 1) :: (y, n) :: rest

def runs (l : List α) : List (α × ℕ) := l.foldr push []

def expand (r : List (α × ℕ)) : List α := r.flatMap fun e ↦ List.replicate e.2 e.1

/-- No run is empty, and neighbouring runs are of different elements. -/
structure Reduced (r : List (α × ℕ)) : Prop where
  pos : ∀ e ∈ r, 0 < e.2
  chain : r.IsChain fun e e' ↦ e.1 ≠ e'.1

variable {x : α} {l : List α} {r : List (α × ℕ)}

theorem runs_cons (x : α) (l : List α) : runs (x :: l) = push x (runs l) := rfl

theorem expand_push (x : α) (r : List (α × ℕ)) : expand (push x r) = x :: expand r := by
  cases r with
  | nil => rfl
  | cons e rest =>
    rw [push]
    split_ifs with hx
    · rw [expand, List.flatMap_cons, List.replicate_succ, hx]
      rfl
    · rfl

theorem expand_runs (l : List α) : expand (runs l) = l := by
  induction l with
  | nil => rfl
  | cons x l ih => rw [runs_cons, expand_push, ih]

omit [DecidableEq α] in
theorem mem_of_mem_expand {e : α × ℕ} (he : e ∈ r) (hpos : 0 < e.2) : e.1 ∈ expand r :=
  List.mem_flatMap.mpr ⟨e, he, List.mem_replicate.mpr ⟨hpos.ne', rfl⟩⟩

theorem Reduced.push (h : Reduced r) (x : α) : Reduced (push x r) := by
  cases r with
  | nil => exact ⟨by simp [RunLengths.push], List.isChain_singleton _⟩
  | cons e rest =>
    obtain ⟨hpos, hrest⟩ := List.forall_mem_cons.mp h.pos
    rw [RunLengths.push]
    split_ifs with hx
    · exact ⟨List.forall_mem_cons.mpr ⟨Nat.succ_pos _, hrest⟩,
        List.isChain_cons.mpr (List.isChain_cons.mp h.chain)⟩
    · exact ⟨List.forall_mem_cons.mpr ⟨Nat.one_pos, h.pos⟩, h.chain.cons_cons hx⟩

theorem reduced_runs (l : List α) : Reduced (runs l) := by
  induction l with
  | nil => exact ⟨by simp [runs], List.isChain_nil⟩
  | cons x l ih => exact ih.push x

theorem mem_of_mem_runs {e : α × ℕ} (he : e ∈ runs l) : e.1 ∈ l := by
  have hmem := mem_of_mem_expand he ((reduced_runs l).pos e he)
  rwa [expand_runs] at hmem

theorem push_of_ne (h : ∀ e ∈ r.head?, x ≠ e.1) : push x r = (x, 1) :: r := by
  cases r with
  | nil => rfl
  | cons e rest => exact if_neg (h e rfl)

theorem runs_replicate_append (h : ∀ e ∈ (runs l).head?, x ≠ e.1) (n : ℕ) :
    runs (List.replicate (n + 1) x ++ l) = (x, n + 1) :: runs l := by
  induction n with
  | zero => exact push_of_ne h
  | succ n ih =>
    rw [List.replicate_succ, List.cons_append, runs_cons, ih, push, if_pos rfl]

/-- The runs of a list are its only reduced form. -/
theorem runs_expand (h : Reduced r) : runs (expand r) = r := by
  induction r with
  | nil => rfl
  | cons e rest ih =>
    obtain ⟨hpos, hrest⟩ := List.forall_mem_cons.mp h.pos
    obtain ⟨hne, hchain⟩ := List.isChain_cons.mp h.chain
    have hruns := ih ⟨hrest, hchain⟩
    obtain ⟨n, hn⟩ := Nat.exists_eq_succ_of_ne_zero hpos.ne'
    rw [expand, List.flatMap_cons, ← expand, hn, runs_replicate_append (by rwa [hruns]), hruns]
    exact congrArg (· :: rest) (Prod.ext rfl hn.symm)

section Sorted

variable {β : Type} [LinearOrder β] {m : List β} {y : β}

theorem pairwise_runs (h : m.Pairwise (· ≤ ·)) : ((runs m).map (·.1)).Pairwise (· < ·) := by
  induction m with
  | nil => exact List.Pairwise.nil
  | cons y m ih =>
    obtain ⟨hle, hm⟩ := List.pairwise_cons.mp h
    have hrest := ih hm
    rw [runs_cons]
    cases hr : runs m with
    | nil => exact List.pairwise_singleton _ _
    | cons e rest =>
      rw [hr] at hrest
      rw [push]
      split_ifs with hy
      · exact hrest
      · have hlt : ∀ e' ∈ runs m, y ≤ e'.1 := fun e' he' ↦ hle _ (mem_of_mem_runs he')
        rw [hr] at hlt
        obtain ⟨hhead, _⟩ := List.forall_mem_cons.mp hlt
        have hye : y < e.1 := lt_of_le_of_ne hhead hy
        refine List.pairwise_cons.mpr ⟨fun z hz ↦ ?_, hrest⟩
        rcases List.mem_cons.mp hz with rfl | hz
        · exact hye
        · exact hye.trans ((List.pairwise_cons.mp hrest).1 z hz)

theorem count_expand {r : List (β × ℕ)} (h : (r.map (·.1)).Pairwise (· < ·)) {e : β × ℕ}
    (he : e ∈ r) : (expand r).count e.1 = e.2 := by
  induction r with
  | nil => cases he
  | cons e' rest ih =>
    obtain ⟨hlt, hrest⟩ := List.pairwise_cons.mp h
    rw [expand, List.flatMap_cons, List.count_append, List.count_replicate, ← expand]
    rcases List.mem_cons.mp he with rfl | he
    · have hnot : e.1 ∉ expand rest := by
        intro hmem
        obtain ⟨e', he', hrep⟩ := List.mem_flatMap.mp hmem
        have heq := (List.mem_replicate.mp hrep).2
        exact (hlt e'.1 (List.mem_map_of_mem he')).ne heq
      rw [List.count_eq_zero_of_not_mem hnot]
      simp
    · have hne : e'.1 ≠ e.1 := (hlt e.1 (List.mem_map_of_mem he)).ne
      rw [ih hrest he]
      simp [hne]

theorem count_of_mem_runs (h : m.Pairwise (· ≤ ·)) {e : β × ℕ} (he : e ∈ runs m) :
    e.2 = m.count e.1 := by
  have hcount := count_expand (pairwise_runs h) he
  rw [expand_runs] at hcount
  exact hcount.symm

end Sorted

end BeatNet.Library.RunLengths
