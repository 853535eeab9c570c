import BeatNet.Library.PrefixSums
import Mathlib.Data.Rat.Floor
import Mathlib.Data.List.Sort
import Mathlib.Tactic.Linarith

namespace BeatNet.Numpy

open Library.PrefixSums

/-- The exceptions the modelled code can raise. `outOfFuel` is not one of
Python's: it marks a loop of the model that was given too few iterations. -/
inductive PyError
  | indexError | valueError | typeError | zeroDivisionError | attributeError | axisError
  | runtimeError | unboundLocalError | outOfFuel
  deriving DecidableEq, Repr

variable {α : Type}

def item (l : List α) (i : ℕ) : Except PyError α :=
  match l[i]? with
  | some a => .ok a
  | none => .error .indexError

def take (l : List α) (idx : List ℕ) : Except PyError (List α) := idx.mapM (item l)

/-- `int(q)` truncates towards zero. -/
def pyInt (q : ℚ) : ℤ := if 0 ≤ q then ⌊q⌋ else ⌈q⌉

/-- `round(q)` takes a half to the even neighbour. -/
def pyRound (q : ℚ) : ℤ :=
  let d := q - ⌊q⌋
  if d < 1 / 2 then ⌊q⌋
  else if 1 / 2 < d then ⌊q⌋ + 1
  else if ⌊q⌋ % 2 = 0 then ⌊q⌋ else ⌊q⌋ + 1

/-- `l[n:]`, a negative `n` counting from the end. -/
def sliceFrom (n : ℤ) (l : List α) : List α :=
  if 0 ≤ n then l.drop n.toNat else l.drop (l.length - (-n).toNat)

def slice (a b : ℕ) (l : List α) : List α := (l.take b).drop a

/-- The median of an empty array is not a number. -/
def median (l : List ℕ) : Option ℚ :=
  let s := l.insertionSort (· ≤ ·)
  let n := s.length
  if n = 0 then none
  else if n % 2 = 1 then some (s.getD (n / 2) 0)
  else some ((s.getD (n / 2 - 1) 0 + s.getD (n / 2) 0 : ℚ) / 2)

def bincount (l : List ℕ) : List ℕ :=
  (List.range (l.foldr (fun x m ↦ max (x + 1) m) 0)).map fun v ↦ l.count v

def argmax (l : List ℕ) : Except PyError ℕ :=
  if l = [] then .error .valueError else .ok (l.idxOf (l.foldr max 0))

def argwhereFirst (l : List ℕ) (x : ℕ) : Except PyError ℕ :=
  if x ∈ l then .ok (l.idxOf x) else .error .indexError

def delete (l : List α) (pos : List ℕ) : Except PyError (List α) :=
  if ∀ p ∈ pos, p < l.length then
    .ok ((l.zipIdx.filter fun x ↦ x.2 ∉ pos).map Prod.fst)
  else .error .indexError

def arange (start stop step : ℕ) : List ℕ :=
  (List.range ((stop - start + (step - 1)) / step)).map fun i ↦ start + i * step

/-- What `np.squeeze` makes of a column: a single entry becomes a zero-dimensional array. -/
inductive Squeezed (α : Type)
  | scalar (x : α)
  | array (l : List α)

def squeeze : List α → Squeezed α
  | [x] => .scalar x
  | l => .array l

def cumsum (w : List ℚ) : List ℚ := prefixSums w

def searchsorted (a : List ℚ) (v : ℚ) : ℕ := insertionPoint a v

theorem squeeze_of_two_le {l : List α} (h : 2 ≤ l.length) : squeeze l = .array l := by
  rcases l with _ | ⟨x, _ | ⟨y, l⟩⟩
  · cases h
  · exact absurd h (by simp)
  · rfl

theorem item_ok {l : List α} {i : ℕ} {a : α} : item l i = .ok a ↔ l[i]? = some a := by
  rw [item]
  cases h : l[i]? <;> simp

theorem item_of_lt {l : List α} {i : ℕ} (h : i < l.length) : item l i = .ok l[i] := by
  simp [item, h]

@[simp] theorem take_nil (l : List α) : take l [] = .ok [] := rfl

theorem take_cons_ok {l : List α} {i : ℕ} {idx : List ℕ} {r : List α} :
    take l (i :: idx) = .ok r ↔ ∃ a t, l[i]? = some a ∧ take l idx = .ok t ∧ r = a :: t := by
  simp only [take]
  rw [List.mapM_cons]
  apply Iff.intro
  · intro h
    cases hi : item l i with
    | error e => rw [hi] at h; cases h
    | ok a =>
      cases ht : idx.mapM (item l) with
      | error e => rw [hi, ht] at h; cases h
      | ok t => rw [hi, ht] at h; cases h; exact ⟨a, t, item_ok.mp hi, rfl, rfl⟩
  · intro h
    obtain ⟨a, t, hi, ht, rfl⟩ := h
    rw [item_ok.mpr hi, ht]
    rfl

theorem take_length {l : List α} {idx : List ℕ} {r : List α} (h : take l idx = .ok r) :
    r.length = idx.length := by
  induction idx generalizing r with
  | nil => cases h; rfl
  | cons i idx ih =>
    obtain ⟨a, t, _, ht, rfl⟩ := take_cons_ok.mp h
    simp [ih ht]

theorem take_mem {l : List α} {idx : List ℕ} {r : List α} (h : take l idx = .ok r) :
    ∀ x ∈ r, x ∈ l := by
  induction idx generalizing r with
  | nil => cases h; simp
  | cons i idx ih =>
    obtain ⟨a, t, ha, ht, rfl⟩ := take_cons_ok.mp h
    intro x hx
    rcases List.mem_cons.mp hx with rfl | hx
    · exact List.mem_of_getElem? ha
    · exact ih ht x hx

theorem mem_take_iff {l r : List α} {idx : List ℕ} (h : take l idx = .ok r) {a : α} :
    a ∈ r ↔ ∃ i ∈ idx, l[i]? = some a := by
  induction idx generalizing r with
  | nil =>
    cases h
    simp
  | cons i idx ih =>
    obtain ⟨b, t, hb, ht, rfl⟩ := take_cons_ok.mp h
    rw [List.mem_cons, ih ht, List.exists_mem_cons_iff, hb, Option.some.injEq, eq_comm]

theorem take_of_lt {l : List α} {idx : List ℕ} (h : ∀ i ∈ idx, i < l.length) :
    ∃ r, take l idx = .ok r := by
  induction idx with
  | nil => exact ⟨[], rfl⟩
  | cons i idx ih =>
    obtain ⟨t, ht⟩ := ih fun j hj ↦ h j (List.mem_cons_of_mem _ hj)
    have hi := h i List.mem_cons_self
    exact ⟨l[i] :: t, take_cons_ok.mpr ⟨l[i], t, by simp [hi], ht, rfl⟩⟩

theorem take_replicate {l : List α} {i : ℕ} {x : α} (h : l[i]? = some x) (n : ℕ) :
    take l (List.replicate n i) = .ok (List.replicate n x) := by
  induction n with
  | zero => rfl
  | succ n ih => exact take_cons_ok.mpr ⟨x, _, h, ih, rfl⟩

theorem take_getElem? {l r : List α} {idx : List ℕ} (h : take l idx = .ok r) {j i : ℕ}
    (hj : idx[j]? = some i) : r[j]? = l[i]? := by
  induction idx generalizing r j with
  | nil => cases hj
  | cons k idx ih =>
    obtain ⟨a, t, ha, ht, rfl⟩ := take_cons_ok.mp h
    cases j with
    | zero =>
      rw [List.getElem?_cons_zero, Option.some.injEq] at hj
      subst hj
      exact ha.symm
    | succ j => exact ih ht hj

theorem take_cons (l : List α) (i : ℕ) (idx : List ℕ) :
    take l (i :: idx) = (item l i).bind fun a ↦ (take l idx).map (a :: ·) := by
  rw [take, List.mapM_cons]
  cases item l i with
  | error e => rfl
  | ok a => cases h : idx.mapM (item l) <;> simp [take, h] <;> rfl

theorem take_injective {l : List α} (hl : l.Nodup) {idx idx' : List ℕ}
    (hidx : ∀ i ∈ idx, i < l.length) (h : take l idx = take l idx') : idx = idx' := by
  obtain ⟨r, hr⟩ := take_of_lt hidx
  have hr' := h ▸ hr
  have hlen : idx.length = idx'.length := (take_length hr).symm.trans (take_length hr')
  apply List.ext_getElem hlen
  intro j hj hj'
  have heq := (take_getElem? hr (List.getElem?_eq_getElem hj)).symm.trans
    (take_getElem? hr' (List.getElem?_eq_getElem hj'))
  exact (List.getElem?_inj (hidx _ (List.getElem_mem hj)) hl).mp heq

theorem argwhereFirst_of_mem {l : List ℕ} {x : ℕ} (h : x ∈ l) :
    ∃ i, argwhereFirst l x = .ok i ∧ i < l.length :=
  ⟨l.idxOf x, if_pos h, List.idxOf_lt_length_of_mem h⟩

theorem delete_of_lt {l : List α} {pos : List ℕ} (h : ∀ p ∈ pos, p < l.length) :
    ∃ r, delete l pos = .ok r := ⟨_, if_pos h⟩

theorem delete_mem {l r : List α} {pos : List ℕ} (h : delete l pos = .ok r) :
    ∀ x ∈ r, x ∈ l := by
  rw [delete] at h
  split at h
  · cases h
    intro x hx
    obtain ⟨p, hp, rfl⟩ := List.mem_map.mp hx
    exact List.fst_mem_of_mem_zipIdx (List.mem_of_mem_filter hp)
  · cases h

theorem filter_zipIdx_eq_eraseIdx (l : List α) (p k : ℕ) :
    (((l.zipIdx k).filter fun x ↦ x.2 ∉ [p + k]).map Prod.fst) = l.eraseIdx p := by
  induction l generalizing p k with
  | nil => rfl
  | cons a l ih =>
    cases p with
    | zero =>
      have hall : ∀ x ∈ l.zipIdx (k + 1), x.2 ∉ [k] := by
        intro x hx
        have hle := List.le_snd_of_mem_zipIdx hx
        simp only [List.mem_singleton]
        omega
      have hself : (l.zipIdx (k + 1)).filter (fun x ↦ x.2 ∉ [k]) = l.zipIdx (k + 1) :=
        List.filter_eq_self.mpr fun x hx ↦ by simpa using hall x hx
      simp only [List.zipIdx_cons, Nat.zero_add, List.eraseIdx_cons_zero]
      rw [List.filter_cons_of_neg (by simp), hself, List.zipIdx_map_fst]
    | succ p =>
      have h := ih p (k + 1)
      simp only [List.zipIdx_cons, List.eraseIdx_cons_succ]
      rw [List.filter_cons_of_pos (by simp), List.map_cons,
        show p + 1 + k = p + (k + 1) by omega, h]

theorem delete_one {l r : List α} {p : ℕ} (h : delete l [p] = .ok r) :
    r.length + 1 = l.length := by
  rw [delete] at h
  split at h
  · rename_i hp
    have hlt : p < l.length := hp p List.mem_cons_self
    have he := filter_zipIdx_eq_eraseIdx l p 0
    rw [Nat.add_zero] at he
    cases h
    rw [he, List.length_eraseIdx_of_lt hlt]
    omega
  · cases h

theorem insertionSort_getD_mem {l : List ℕ} {i : ℕ} (hi : i < l.length) :
    (l.insertionSort (· ≤ ·)).getD i 0 ∈ l := by
  have hp := List.perm_insertionSort (· ≤ ·) l
  have hi' : i < (l.insertionSort (· ≤ ·)).length := by rwa [hp.length_eq]
  rw [List.getD_eq_getElem?_getD, List.getElem?_eq_getElem hi', Option.getD_some]
  exact hp.mem_iff.mp (List.getElem_mem hi')

theorem median_lt {l : List ℕ} {q : ℚ} {N : ℕ} (h : median l = some q)
    (hN : ∀ x ∈ l, x < N) : 0 ≤ q ∧ q < N := by
  have hlen : (l.insertionSort (· ≤ ·)).length = l.length :=
    (List.perm_insertionSort (· ≤ ·) l).length_eq
  have hmem : ∀ i, i < l.length → ((l.insertionSort (· ≤ ·)).getD i 0 : ℚ) < N := fun i hi ↦ by
    exact_mod_cast hN _ (insertionSort_getD_mem hi)
  have hnn : ∀ i, (0 : ℚ) ≤ (l.insertionSort (· ≤ ·)).getD i 0 := fun i ↦ Nat.cast_nonneg _
  rw [median] at h
  simp only [hlen] at h
  split_ifs at h with h0 h1
  · cases h
    exact ⟨hnn _, hmem _ (by omega)⟩
  · cases h
    have ha := hmem (l.length / 2 - 1) (by omega)
    have hb := hmem (l.length / 2) (by omega)
    have ha' := hnn (l.length / 2 - 1)
    have hb' := hnn (l.length / 2)
    constructor <;> linarith

theorem pyInt_lt {q : ℚ} {N : ℕ} (h0 : 0 ≤ q) (hN : q < N) : (pyInt q).toNat < N := by
  have hf : ⌊q⌋ < (N : ℤ) := Int.floor_lt.mpr (by exact_mod_cast hN)
  have hn : 0 ≤ ⌊q⌋ := Int.floor_nonneg.mpr h0
  rw [pyInt, if_pos h0]
  omega

theorem foldr_max_mem {l : List ℕ} (h : l ≠ []) : l.foldr max 0 ∈ l := by
  induction l with
  | nil => exact absurd rfl h
  | cons a l ih =>
    rw [List.foldr_cons]
    by_cases hl : l = []
    · subst hl; simp
    · rcases max_choice a (l.foldr max 0) with he | he
      · rw [he]; exact List.mem_cons_self
      · rw [he]; exact List.mem_cons_of_mem _ (ih hl)

theorem le_foldr_max {l : List ℕ} {x : ℕ} (h : x ∈ l) : x ≤ l.foldr max 0 := by
  induction l with
  | nil => cases h
  | cons a l ih =>
    rw [List.foldr_cons]
    rcases List.mem_cons.mp h with rfl | h
    · exact le_max_left _ _
    · exact (ih h).trans (le_max_right _ _)

theorem lt_foldr_succ {l : List ℕ} {x : ℕ} (h : x ∈ l) :
    x < l.foldr (fun x m ↦ max (x + 1) m) 0 := by
  induction l with
  | nil => cases h
  | cons a l ih =>
    rw [List.foldr_cons]
    rcases List.mem_cons.mp h with rfl | h
    · exact lt_of_lt_of_le (Nat.lt_succ_self _) (le_max_left _ _)
    · exact lt_of_lt_of_le (ih h) (le_max_right _ _)

theorem argmax_bincount_mem {l : List ℕ} {m : ℕ} (h : argmax (bincount l) = .ok m) : m ∈ l := by
  rw [argmax] at h
  split_ifs at h with hb
  have hm := Except.ok.inj h
  have hl : l ≠ [] := by
    rintro rfl
    exact hb rfl
  obtain ⟨x, hx⟩ := List.exists_mem_of_ne_nil l hl
  have hmem := foldr_max_mem hb
  have hlt := List.idxOf_lt_length_of_mem hmem
  have hget := List.getElem_idxOf hlt
  rw [hm] at hlt
  simp only [hm] at hget
  have hcount : (bincount l)[m] = l.count m := by simp [bincount]
  have hxin : l.count x ∈ bincount l :=
    List.mem_map.mpr ⟨x, List.mem_range.mpr (lt_foldr_succ hx), rfl⟩
  have hpos : 0 < l.count x := List.count_pos_iff.mpr hx
  have hle := le_foldr_max hxin
  rw [← hget, hcount] at hle
  exact List.count_pos_iff.mp (by omega)

theorem mem_arange {start stop step i : ℕ} (hs : 0 < step) (h : i ∈ arange start stop step) :
    i < stop := by
  obtain ⟨k, hk, rfl⟩ := List.mem_map.mp h
  have hk' := List.mem_range.mp hk
  have hd : k + 1 ≤ (stop - start + (step - 1)) / step := hk'
  have hmul := (Nat.le_div_iff_mul_le hs).mp hd
  rw [Nat.add_mul] at hmul
  omega

theorem arange_eq_nil {start stop step : ℕ} (hs : 0 < step) :
    arange start stop step = [] ↔ stop ≤ start := by
  simp only [arange, List.map_eq_nil_iff, List.range_eq_nil, Nat.div_eq_zero_iff]
  omega

end BeatNet.Numpy
