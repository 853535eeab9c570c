import BeatNet.Numpy
import BeatNet.Library.Effects

namespace BeatNet

open Numpy Library.Effects

/-- NumPy's global random generator with state `G`. Every function returns the
draw and the state that follows it; the laws are what the documentation of
`np.random` promises of a draw. -/
structure Rng (G : Type) where
  /-- `uniform(0, high, size)` -/
  uniform : ℚ → ℕ → G → List ℚ × G
  /-- `choice(np.arange(0, n), size, replace=True)` -/
  integers : ℕ → ℕ → G → List ℕ × G
  /-- `randint(n)` -/
  randint : ℕ → G → ℕ × G
  /-- `choice(a, 1, p=p)` -/
  choice : List ℕ → List ℚ → G → ℕ × G
  /-- `choice(n, size, replace=False)` -/
  subset : ℕ → ℕ → G → List ℕ × G
  length_uniform : ∀ h n g, (uniform h n g).1.length = n
  uniform_mem : ∀ h n g, 0 < h → ∀ x ∈ (uniform h n g).1, 0 ≤ x ∧ x < h
  length_integers : ∀ n size g, (integers n size g).1.length = size
  integers_lt : ∀ n size g, 0 < n → ∀ x ∈ (integers n size g).1, x < n
  randint_lt : ∀ n g, 0 < n → (randint n g).1 < n
  choice_mem : ∀ a p g, a.length = p.length → (∀ x ∈ p, 0 ≤ x) → 0 < p.sum →
    ∃ q, ((choice a p g).1, q) ∈ a.zip p ∧ 0 < q
  length_subset : ∀ n size g, size ≤ n → (subset n size g).1.length = size
  subset_lt : ∀ n size g, size ≤ n → ∀ x ∈ (subset n size g).1, x < n

abbrev Draw (G α : Type) := StateT G (Except PyError) α

variable {G : Type} (rng : Rng G)

def drawUniform (high : ℚ) (size : ℕ) : Draw G (List ℚ) :=
  fun g ↦ .ok (rng.uniform high size g)

def drawRandint (n : ℕ) : Draw G ℕ := fun g ↦ .ok (rng.randint n g)

def drawIntegers (n size : ℕ) : Draw G (List ℕ) := fun g ↦
  if n = 0 ∧ size ≠ 0 then .error .valueError else .ok (rng.integers n size g)

def drawSubset (n size : ℕ) : Draw G (List ℕ) := fun g ↦
  if n < size then .error .valueError else .ok (rng.subset n size g)

/-- What `np.random.choice` draws from: a zero-dimensional `a` stands for `np.arange(a)`. -/
def population : Squeezed ℕ → List ℕ
  | .scalar n => List.range n
  | .array a => a

/-- How far from one the sum of the probabilities may be: the square root of the precision of a
double. -/
def tolerance : ℚ := 1 / 2 ^ 26

/-- `np.random.choice(a, 1, p=p)` with its checks. A zero-dimensional `p` has no length. -/
def drawChoice (a : Squeezed ℕ) (p : Squeezed ℚ) : Draw G ℕ := fun g ↦
  if population a = [] then .error .valueError
  else match p with
  | .scalar _ => .error .typeError
  | .array p =>
    if (population a).length ≠ p.length ∨ (∃ x ∈ p, x < 0) ∨ tolerance < |p.sum - 1| then
      .error .valueError
    else .ok (rng.choice (population a) p g)

variable {rng} {E : PyError → Prop}

theorem meets_drawUniform {high : ℚ} (hh : 0 < high) (size : ℕ) :
    Meets (drawUniform rng high size)
      (fun r ↦ r.length = size ∧ ∀ x ∈ r, 0 ≤ x ∧ x < high) E :=
  fun g ↦ ⟨rng.length_uniform high size g, rng.uniform_mem high size g hh⟩

theorem meets_drawRandint {n : ℕ} (hn : 0 < n) : Meets (drawRandint rng n) (· < n) E :=
  fun g ↦ rng.randint_lt n g hn

theorem meets_drawIntegers (hfail : E .valueError) (n size : ℕ) :
    Meets (drawIntegers rng n size) (fun l ↦ l.length = size ∧ ∀ x ∈ l, x < n) E := by
  intro g
  by_cases h : n = 0 ∧ size ≠ 0
  · simpa [drawIntegers, StateT.run, h] using hfail
  · have hlen := rng.length_integers n size g
    simp only [drawIntegers, StateT.run, if_neg h]
    refine ⟨hlen, fun x hx ↦ ?_⟩
    by_cases hn : n = 0
    · have hs : size = 0 := by tauto
      rw [List.length_eq_zero_iff.mp (hlen.trans hs)] at hx
      cases hx
    · exact rng.integers_lt n size g (by omega) x hx

theorem meets_drawSubset (hfail : E .valueError) (n size : ℕ) :
    Meets (drawSubset rng n size) (fun l ↦ l.length = size ∧ ∀ x ∈ l, x < n) E := by
  intro g
  by_cases h : n < size
  · simpa [drawSubset, StateT.run, h] using hfail
  · simp only [drawSubset, StateT.run, if_neg h]
    exact ⟨rng.length_subset n size g (by omega), rng.subset_lt n size g (by omega)⟩

theorem meets_drawChoice_scalar (hvalue : E .valueError) (htype : E .typeError) (a : Squeezed ℕ)
    (x : ℚ) : Meets (drawChoice rng a (.scalar x)) (fun _ ↦ False) E := by
  intro g
  by_cases hne : population a = []
  · simpa only [drawChoice, StateT.run, if_pos hne] using hvalue
  · simpa only [drawChoice, StateT.run, if_neg hne] using htype

theorem meets_drawChoice (hvalue : E .valueError) (htype : E .typeError) (a : Squeezed ℕ)
    (p : Squeezed ℚ) : Meets (drawChoice rng a p) (· ∈ population a) E := by
  cases p with
  | scalar x =>
    exact (meets_drawChoice_scalar hvalue htype a x).mono (fun _ hf ↦ hf.elim) fun _ he ↦ he
  | array p =>
    intro g
    by_cases hne : population a = []
    · simpa only [drawChoice, StateT.run, if_pos hne] using hvalue
    by_cases h : (population a).length ≠ p.length ∨ (∃ x ∈ p, x < 0) ∨ tolerance < |p.sum - 1|
    · simpa only [drawChoice, StateT.run, if_neg hne, if_pos h] using hvalue
    · simp only [drawChoice, StateT.run, if_neg hne, if_neg h]
      push Not at h
      obtain ⟨hlen, hnonneg, hsum⟩ := h
      have hpos : 0 < p.sum := by
        have hlow := (abs_le.mp hsum).1
        have hsmall : tolerance < 1 := by norm_num [tolerance]
        linarith
      obtain ⟨q, hq, _⟩ := rng.choice_mem _ p g hlen hnonneg hpos
      exact (List.of_mem_zip hq).1

theorem meets_drawChoice_law {a : List ℕ} {p : List ℚ} (hne : a ≠ [])
    (hlen : a.length = p.length) (hnonneg : ∀ x ∈ p, 0 ≤ x) (hsum : p.sum = 1) :
    Meets (drawChoice rng (.array a) (.array p)) (fun x ↦ ∃ q, (x, q) ∈ a.zip p ∧ 0 < q) E := by
  intro g
  have hnot : ¬ (a.length ≠ p.length ∨ (∃ x ∈ p, x < 0) ∨ tolerance < |p.sum - 1|) := by
    rintro (h | ⟨x, hx, hneg⟩ | h)
    · exact h hlen
    · exact not_le.mpr hneg (hnonneg x hx)
    · rw [hsum, sub_self, abs_zero] at h
      exact absurd h (by norm_num [tolerance])
  have hrun : drawChoice rng (.array a) (.array p) g = .ok (rng.choice a p g) :=
    (if_neg hne).trans (if_neg hnot)
  simp only [StateT.run, hrun]
  exact rng.choice_mem a p g hlen hnonneg (hsum ▸ one_pos)

def Rng.least : Rng Unit where
  uniform _ size g := (List.replicate size 0, g)
  integers _ size g := (List.replicate size 0, g)
  randint _ g := (0, g)
  choice a p g := ((((a.zip p).find? fun x ↦ 0 < x.2).map Prod.fst).getD 0, g)
  subset _ size g := (List.range size, g)
  length_uniform := by simp
  uniform_mem := by
    intro h n g hh x hx
    rw [List.eq_of_mem_replicate hx]
    exact ⟨le_rfl, hh⟩
  length_integers := by simp
  integers_lt := by
    intro n size g hn x hx
    rwa [List.eq_of_mem_replicate hx]
  randint_lt := by
    intro n g hn
    exact hn
  choice_mem := by
    intro a p g hlen hp hsum
    have hpos : ∃ q ∈ p, 0 < q := by
      by_contra! hno
      have hzero := List.sum_eq_zero fun x hx ↦ le_antisymm (hno x hx) (hp x hx)
      exact hsum.ne' hzero
    obtain ⟨q, hq, hq0⟩ := hpos
    have hmem : q ∈ (a.zip p).map Prod.snd := by rwa [List.map_snd_zip hlen.ge]
    obtain ⟨x, hx, rfl⟩ := List.mem_map.mp hmem
    cases hf : (a.zip p).find? (fun x ↦ 0 < x.2) with
    | none => exact absurd hq0 (by simpa using List.find?_eq_none.mp hf x hx)
    | some y =>
      have hy := List.find?_some hf
      exact ⟨y.2, List.mem_of_find?_eq_some hf, by simpa using hy⟩
  length_subset := by simp
  subset_lt := by
    intro n size g hs x hx
    exact lt_of_lt_of_le (List.mem_range.mp hx) hs

/-- The generator whose uniform draws give the numbers `r` where they can. -/
def Rng.drawing (r : List ℚ) : Rng Unit :=
  { Rng.least with
    uniform := fun h n g ↦
      if r.length = n ∧ ∀ x ∈ r, 0 ≤ x ∧ x < h then (r, g) else Rng.least.uniform h n g
    length_uniform := by
      intro h n g
      split_ifs with hr
      · exact hr.1
      · exact Rng.least.length_uniform h n g
    uniform_mem := by
      intro h n g hh
      split_ifs with hr
      · exact hr.2
      · exact Rng.least.uniform_mem h n g hh }

theorem Rng.uniform_drawing {r : List ℚ} {h : ℚ} (hr : ∀ x ∈ r, 0 ≤ x ∧ x < h) :
    (Rng.drawing r).uniform h r.length () = (r, ()) := if_pos ⟨rfl, hr⟩

end BeatNet
