import BeatNet.Runs

namespace BeatNet

open Numpy Library.Blocks Library.Effects Library.Shuffles

section Motions

variable {G : Type} (c : Config) (rng : Rng G)

/-- The transitions out of a last state have a probability law, as madmom's models have. -/
def BarTransitionModel.Lawful {st : BarStateSpace} (tm : BarTransitionModel st) : Prop :=
  ∀ l ∈ st.lasts, (∀ t ∈ tm.rows.filter (·.prev = l), 0 ≤ t.prob) ∧
    ((tm.rows.filter (·.prev = l)).map (·.prob)).sum = 1

def beatMotions : ℕ → List ℕ → Draw G (List ℕ)
  | 0, particles => pure particles
  | m + 1, particles => do
    let moved ← beatMotions m particles
    beatMotion c rng moved

def Allowed (y x : ℕ) : Prop := ∃ t ∈ c.tm.rows, t.prev = y ∧ t.state = x ∧ 0 < t.prob

def Branching (particles : List ℕ) : Prop :=
  ∀ l ∈ particles, l ∈ c.st.lasts → 2 ≤ (c.tm.rows.filter (·.prev = l)).length

/-- What a particle does in `m` motions: it walks through its block, enters the first state of a
block when its own is over, and only takes transitions that are allowed. -/
structure Walk (m : ℕ) (path : ℕ → ℕ) : Prop where
  steady : ∀ b n k, At c.st.intervals b n k (path 0) →
    ∀ j ≤ m, k + j < n → At c.st.intervals b n (k + j) (path j)
  enters : ∀ b n k, At c.st.intervals b n k (path 0) → n - k ≤ m → path (n - k) ∈ c.st.firsts
  allowed : ∀ j < m, path j ∈ c.st.lasts → Allowed c (path j) (path (j + 1))

/-- The first `m` motions succeed, and the particles after each of them are the places that the
walks of the particles have reached, in some order. -/
def Conserved (m : ℕ) (particles : List ℕ) (g : G) : Prop :=
  ∃ paths : List (ℕ → ℕ), paths.map (· 0) = particles ∧ (∀ path ∈ paths, Walk c m path) ∧
    ∀ j ≤ m, ∃ out g', (beatMotions c rng j particles).run g = .ok (out, g') ∧
      out.length = particles.length ∧ (paths.map (· j)).Perm out

end Motions

section Steps

variable {G : Type} {c : Config} {rng : Rng G} {l m : ℕ} {particles : List ℕ} {g : G}

theorem meets_beatJump_law {E : PyError → Prop} (hlaw : c.tm.Lawful) (hl : l ∈ c.st.lasts)
    (htwo : 2 ≤ (c.tm.rows.filter (·.prev = l)).length) :
    Meets (beatJump c rng l) (Allowed c l) E := by
  obtain ⟨hnonneg, hsum⟩ := hlaw l hl
  rw [beatJump, squeeze_of_two_le (by rwa [List.length_map]),
    squeeze_of_two_le (by rwa [List.length_map])]
  refine (meets_drawChoice_law ?_ (by simp) ?_ hsum).mono (fun x hx ↦ ?_) fun _ he ↦ he
  · intro hnil
    rw [List.map_eq_nil_iff] at hnil
    rw [hnil] at htwo
    exact absurd htwo (by simp)
  · intro p hp
    obtain ⟨t, ht, rfl⟩ := List.mem_map.mp hp
    exact hnonneg t ht
  · obtain ⟨q, hq, hpos⟩ := hx
    rw [List.zip_map', List.mem_map] at hq
    obtain ⟨t, ht, heq⟩ := hq
    obtain ⟨hrow, hprev⟩ := List.mem_filter.mp ht
    cases heq
    exact ⟨t, hrow, by simpa using hprev, rfl, hpos⟩

theorem meets_beatMotion_law {E : PyError → Prop} (hlaw : c.tm.Lawful)
    (hbranching : Branching c particles) :
    Meets (beatMotion c rng particles) (Shuffled (MovesTo c.st.lasts (Allowed c)) particles) E :=
  meets_motion fun l hl hlast ↦ meets_beatJump_law hlaw hlast (hbranching l hl hlast)

theorem meets_beatMotion_fails (h : ¬ Branching c particles) :
    Meets (beatMotion c rng particles) (fun _ ↦ False) (fun _ ↦ True) := by
  rw [Branching] at h
  push Not at h
  obtain ⟨l, hl, hlast, hone⟩ := h
  have hjump : Meets (beatJump c rng l) (fun _ ↦ False) fun _ ↦ True :=
    (meets_beatJump_fails (S := False) (not_le.mpr hone)).mono (fun _ hf ↦ hf) fun _ _ ↦ trivial
  -- the particle stays among those that still have to jump
  have hrest : l ∈ particles.filter (· ∈ c.st.lasts) :=
    List.mem_filter.mpr ⟨hl, by simpa using hlast⟩
  refine (Meets.foldlM_rest (I := fun rest _ ↦ l ∈ rest) ?_ hrest).mono
    (fun _ hnil ↦ List.not_mem_nil hnil) fun _ he ↦ he
  intro l' rest state _ hmem
  rcases List.mem_cons.mp hmem with rfl | hmem
  · exact hjump.bind fun _ hfalse ↦ hfalse.elim
  · exact Meets.of_forall fun _ ↦ hmem

theorem walk_of_steps {path : ℕ → ℕ}
    (hstep : ∀ j < m, MovesTo c.st.lasts (Allowed c) (path j) (path (j + 1))) : Walk c m path := by
  have hallowed : ∀ j < m, path j ∈ c.st.lasts → Allowed c (path j) (path (j + 1)) := by
    intro j hj hlast
    have hto := hstep j hj
    rwa [MovesTo, if_pos hlast] at hto
  have hsteady : ∀ b n k, At c.st.intervals b n k (path 0) →
      ∀ j ≤ m, k + j < n → At c.st.intervals b n (k + j) (path j) := by
    intro b n k hat j
    induction j with
    | zero => exact fun _ _ ↦ hat
    | succ j ih =>
      intro hj hkn
      have hbefore := ih (by omega) (by omega)
      have hlast : path j ∉ c.st.lasts := by
        rw [BarStateSpace.lasts, hbefore.mem_ends_iff c.st.intervals_pos]
        omega
      have hto := hstep j (by omega)
      rw [MovesTo, if_neg hlast] at hto
      rw [hto]
      exact hbefore.next (by omega)
  refine ⟨hsteady, fun b n k hat hnm ↦ ?_, hallowed⟩
  have hk := hat.entry
  have hend := hsteady b n k hat (n - k - 1) (by omega) (by omega)
  have hlast : path (n - k - 1) ∈ c.st.lasts := by
    rw [BarStateSpace.lasts, hend.mem_ends_iff c.st.intervals_pos]
    omega
  obtain ⟨t, ht, hprev, hstate, _⟩ := hallowed (n - k - 1) (by omega) hlast
  have hfirst := c.tm.from_last t ht (hprev ▸ hlast)
  rwa [hstate, show n - k - 1 + 1 = n - k by omega] at hfirst

end Steps

section Runs

variable {G : Type} {c : Config} {rng : Rng G} {m : ℕ} {particles : List ℕ} {g : G}

theorem beatMotions_succ_ok {out : List ℕ} {g' : G} :
    (beatMotions c rng (m + 1) particles).run g = .ok (out, g') ↔
      ∃ moved k, (beatMotions c rng m particles).run g = .ok (moved, k) ∧
        (beatMotion c rng moved).run k = .ok (out, g') := run_bind_ok

theorem exists_motions (hlaw : c.tm.Lawful)
    (h : ∀ j < m, ∀ out g', (beatMotions c rng j particles).run g = .ok (out, g') →
      Branching c out) :
    ∀ j ≤ m, ∃ out g', (beatMotions c rng j particles).run g = .ok (out, g') := by
  intro j
  induction j with
  | zero => exact fun _ ↦ ⟨particles, g, rfl⟩
  | succ j ih =>
    intro hj
    obtain ⟨moved, k, hmoved⟩ := ih (by omega)
    have hmotion : Meets (beatMotion c rng moved) _ fun _ ↦ False :=
      meets_beatMotion_law hlaw (h j hj moved k hmoved)
    cases hrun : (beatMotion c rng moved).run k with
    | error e => exact (hmotion.error hrun).elim
    | ok p => exact ⟨p.1, p.2, beatMotions_succ_ok.mpr ⟨moved, k, hmoved, hrun⟩⟩

/-- Motions conserve the particles and their tempo just when no particle is left with a single
transition at the end of its block. -/
theorem beat_motion (hlaw : c.tm.Lawful) (rng : Rng G) (m : ℕ) (particles : List ℕ) (g : G) :
    Conserved c rng m particles g ↔
      ∀ j < m, ∀ out g', (beatMotions c rng j particles).run g = .ok (out, g') →
        Branching c out := by
  apply Iff.intro
  · intro h j hj out g' hout
    by_contra hnot
    obtain ⟨paths, _, _, hruns⟩ := h
    obtain ⟨out', g'', hrun, _⟩ := hruns (j + 1) hj
    obtain ⟨moved, k, hmoved, hrest⟩ := beatMotions_succ_ok.mp hrun
    rw [hout] at hmoved
    cases hmoved
    exact (meets_beatMotion_fails hnot).ok hrest
  · intro h
    have hruns := exists_motions hlaw h
    choose! states hstates using hruns
    have hshuffled : ∀ j < m,
        Shuffled (MovesTo c.st.lasts (Allowed c)) (states j) (states (j + 1)) := by
      intro j hj
      obtain ⟨g', hrun⟩ := hstates j hj.le
      obtain ⟨g'', hnext⟩ := hstates (j + 1) hj
      obtain ⟨moved, k, hmoved, hrest⟩ := beatMotions_succ_ok.mp hnext
      rw [hrun] at hmoved
      cases hmoved
      exact (meets_beatMotion_law (E := fun _ ↦ False) hlaw (h j hj _ _ hrun)).ok hrest
    obtain ⟨paths, hpaths⟩ := exists_paths hshuffled
    obtain ⟨g₀, hstart⟩ := hstates 0 (Nat.zero_le m)
    cases hstart
    refine ⟨paths, hpaths.start, fun path hpath ↦ walk_of_steps (hpaths.step path hpath), ?_⟩
    intro j hj
    obtain ⟨g', hrun⟩ := hstates j hj
    refine ⟨_, g', hrun, ?_, hpaths.perm j hj⟩
    rw [← (hpaths.perm j hj).length_eq, List.length_map, ← hpaths.start, List.length_map]

theorem beat_motion_small : Conserved (small 0 (4 / 10)) Rng.least 5 [0, 2, 6] () := by
  refine (beat_motion (c := small 0 (4 / 10)) (by unfold BarTransitionModel.Lawful; decide +kernel)
    Rng.least 5 [0, 2, 6] ()).mpr fun j _ out g' _ l _ hlast ↦ ?_
  have hall : ∀ l ∈ (small 0 (4 / 10)).st.lasts,
      2 ≤ ((small 0 (4 / 10)).tm.rows.filter (·.prev = l)).length := by decide
  exact hall l hlast

def oneTempo : Config :=
  { small 0 (4 / 10) with
    st := ⟨[3], by decide⟩
    tm := ⟨[⟨1, 0, 1⟩, ⟨2, 1, 1⟩, ⟨0, 2, 1⟩], by decide⟩
    om := ⟨.border [2, 0, 0], rfl⟩ }

/-- With a single tempo the only transition out of the last state cannot be drawn. -/
theorem single_tempo_stuck :
    ¬ ∀ (c : Config) (m : ℕ) (particles : List ℕ), c.tm.Lawful →
      Conserved c Rng.least m particles () := by
  intro h
  obtain ⟨paths, _, _, hruns⟩ := h oneTempo 1 [2]
    (by unfold BarTransitionModel.Lawful; decide +kernel)
  obtain ⟨out, g', hrun, _⟩ := hruns 1 le_rfl
  have hfails : (beatMotions oneTempo Rng.least 1 [2]).run () = .error .valueError := rfl
  rw [hfails] at hrun
  cases hrun

end Runs

end BeatNet
