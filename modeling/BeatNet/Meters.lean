import BeatNet.Validity
import Mathlib.Tactic.FieldSimp

namespace BeatNet

open Numpy Library.Effects Library.Blocks

structure Meters where
  beatsPerBar : List ℕ
  minBeatsPerBar : ℕ
  maxBeatsPerBar : ℕ

namespace Meters

variable (m : Meters)

def lowest : ℕ := if m.beatsPerBar = [] then m.minBeatsPerBar else m.beatsPerBar.min?.getD 0

def highest : ℕ := if m.beatsPerBar = [] then m.maxBeatsPerBar else m.beatsPerBar.max?.getD 0

/-- The downbeat state space. `barStateSpace` constructs madmom's space for one beat, from the
lowest and the highest interval and the number of intervals. -/
def st2 (barStateSpace : ℕ → ℕ → ℕ → BarStateSpace) : BarStateSpace :=
  barStateSpace m.lowest m.highest (m.highest - m.lowest + 1)

/-- A list of meters from two beats on, or else bounds in order. -/
def Accepted : Prop :=
  (∀ n ∈ m.beatsPerBar, 2 ≤ n) ∧ (m.beatsPerBar = [] → m.minBeatsPerBar ≤ m.maxBeatsPerBar)

instance : Decidable m.Accepted := inferInstanceAs (Decidable (_ ∧ _))

variable {m}

theorem lowest_mem (h : m.beatsPerBar ≠ []) : m.lowest ∈ m.beatsPerBar := by
  obtain ⟨a, ha⟩ := Option.isSome_iff_exists.mp (List.isSome_min?_of_ne_nil h)
  rw [lowest, if_neg h, ha]
  exact (List.min?_eq_some_iff.mp ha).1

theorem highest_mem (h : m.beatsPerBar ≠ []) : m.highest ∈ m.beatsPerBar := by
  obtain ⟨a, ha⟩ := Option.isSome_iff_exists.mp (List.isSome_max?_of_ne_nil h)
  rw [highest, if_neg h, ha]
  exact (List.max?_eq_some_iff.mp ha).1

theorem between {n : ℕ} (h : n ∈ m.beatsPerBar) : m.lowest ≤ n ∧ n ≤ m.highest := by
  have hne := List.ne_nil_of_mem h
  obtain ⟨a, ha⟩ := Option.isSome_iff_exists.mp (List.isSome_min?_of_ne_nil hne)
  obtain ⟨b, hb⟩ := Option.isSome_iff_exists.mp (List.isSome_max?_of_ne_nil hne)
  rw [lowest, highest, if_neg hne, if_neg hne, ha, hb]
  exact ⟨(List.min?_eq_some_iff.mp ha).2 n h, (List.max?_eq_some_iff.mp hb).2 n h⟩

theorem Accepted.le (h : m.Accepted) : m.lowest ≤ m.highest := by
  by_cases hne : m.beatsPerBar = []
  · rw [lowest, highest, if_pos hne, if_pos hne]
    exact h.2 hne
  · exact (between (lowest_mem hne)).2

end Meters

structure TransitionLaw (c : Config) : Prop where
  rows : c.tm2.length = c.st2.firsts.length
  columns : ∀ row ∈ c.tm2, row.length = c.st2.firsts.length
  nonneg : ∀ row ∈ c.tm2, ∀ x ∈ row, 0 ≤ x
  sum : ∀ row ∈ c.tm2, row.sum = 1

def WellFormedDraw (c : Config) (l : ℕ) : Prop :=
  ∃ arg row p, argwhereFirst c.st2.lasts l = .ok arg ∧ item c.tm2 arg = .ok row ∧
    squeeze row = .array p ∧ p.length = c.st2.firsts.length ∧ (∀ x ∈ p, 0 ≤ x) ∧ p.sum = 1

section Law

variable {G : Type} {c : Config} {rng : Rng G} {l : ℕ}

theorem sum_map_ite (x y : ℚ) (i k : ℕ) :
    ((List.range k).map fun j ↦ if i = j then x else y).sum =
      if i < k then x + (k - 1) * y else k * y := by
  induction k with
  | zero => simp
  | succ k ih =>
    rw [List.range_succ, List.map_append, List.sum_append, ih, List.map_singleton,
      List.sum_singleton]
    rcases Nat.lt_trichotomy i k with hlt | rfl | hgt
    · rw [if_pos hlt, if_neg hlt.ne, if_pos (by omega)]
      push_cast
      ring
    · rw [if_neg (lt_irrefl i), if_pos rfl, if_pos i.lt_succ_self]
      push_cast
      ring
    · rw [if_neg (by omega), if_neg hgt.ne', if_neg (by omega)]
      push_cast
      ring

theorem mem_tm2 {row : List ℚ} : row ∈ c.tm2 ↔ ∃ i < c.st2.firsts.length,
    (List.range c.st2.firsts.length).map (fun j ↦
      if i = j then 1 - c.lambdaD else c.lambdaD / (c.st2.firsts.length - 1)) = row := by
  simp only [Config.tm2, List.mem_map, List.mem_range]

theorem length_tm2 : c.tm2.length = c.st2.firsts.length := by
  rw [Config.tm2, List.length_map, List.length_range]

theorem length_of_mem_tm2 {row : List ℚ} (h : row ∈ c.tm2) : row.length = c.st2.firsts.length := by
  obtain ⟨i, _, rfl⟩ := mem_tm2.mp h
  rw [List.length_map, List.length_range]

theorem transitionLaw (hmeters : 1 < c.st2.firsts.length) (hlow : 0 ≤ c.lambdaD)
    (hhigh : c.lambdaD ≤ 1) : TransitionLaw c := by
  have hpos : (0 : ℚ) < c.st2.firsts.length - 1 := sub_pos.mpr (by exact_mod_cast hmeters)
  refine ⟨length_tm2, fun row ↦ length_of_mem_tm2, fun row hrow x hx ↦ ?_, fun row hrow ↦ ?_⟩
  · obtain ⟨i, _, rfl⟩ := mem_tm2.mp hrow
    obtain ⟨j, _, rfl⟩ := List.mem_map.mp hx
    split_ifs
    · exact sub_nonneg.mpr hhigh
    · exact div_nonneg hlow hpos.le
  · obtain ⟨i, hi, rfl⟩ := mem_tm2.mp hrow
    rw [sum_map_ite, if_pos hi, mul_div_cancel₀ _ hpos.ne', sub_add_cancel]

theorem wellFormedDraw (hlaw : TransitionLaw c) (hmeters : 1 < c.st2.firsts.length)
    (hl : l ∈ c.st2.lasts) : WellFormedDraw c l := by
  obtain ⟨arg, harg, hlt⟩ := argwhereFirst_of_mem hl
  have hrow : arg < c.tm2.length := by simpa [length_tm2] using hlt
  have hmem := List.getElem_mem hrow
  refine ⟨arg, c.tm2[arg], c.tm2[arg], harg, item_of_lt hrow, ?_, hlaw.columns _ hmem,
    hlaw.nonneg _ hmem, hlaw.sum _ hmem⟩
  exact squeeze_of_two_le (by rw [hlaw.columns _ hmem]; omega)

theorem not_wellFormedDraw (hmeters : c.st2.firsts.length = 1) : ¬ WellFormedDraw c l := by
  rintro ⟨arg, row, p, _, hrow, hp, _⟩
  have hlen := length_of_mem_tm2 (List.mem_of_getElem? (item_ok.mp hrow))
  obtain ⟨x, rfl⟩ := List.length_eq_one_iff.mp (hlen.trans hmeters)
  cases hp

theorem WellFormedDraw.meets_downJump (h : WellFormedDraw c l) (hne : c.st2.firsts ≠ []) :
    Meets (downJump c rng l) (· ∈ c.st2.firsts) (fun _ ↦ False) := by
  obtain ⟨arg, row, p, harg, hrow, hp, hlen, hnonneg, hsum⟩ := h
  refine Meets.bind_lift harg (Meets.bind_lift hrow ?_)
  rw [hp]
  refine (meets_drawChoice_law hne hlen.symm hnonneg hsum).mono (fun x hx ↦ ?_) fun _ he ↦ he
  obtain ⟨q, hq, _⟩ := hx
  exact (List.of_mem_zip hq).1

theorem meets_downMotion_law (hlaw : TransitionLaw c) (hmeters : 1 < c.st2.firsts.length)
    (downParticles : List ℕ) :
    Meets (downMotion c rng downParticles) (Moved c.st2 downParticles) (fun _ ↦ False) :=
  meets_motion_moved (fun _ hl ↦ (wellFormedDraw hlaw hmeters hl).meets_downJump
    (List.ne_nil_of_length_pos (by omega))) downParticles

end Law

section Madmom

variable {G : Type} {c : Config} {m : Meters} {barStateSpace : ℕ → ℕ → ℕ → BarStateSpace}

/-- The matrix is a law that every draw can use just when the meters are not all the same, and
then no draw of a run fails. -/
theorem downbeat_transition_law
    (hspace : ∀ lo hi, lo ≤ hi →
      (barStateSpace lo hi (hi - lo + 1)).intervals.length = hi - lo + 1)
    (hm : m.Accepted) (hst2 : c.st2 = m.st2 barStateSpace) (hlow : 0 ≤ c.lambdaD)
    (hhigh : c.lambdaD ≤ 1) :
    (TransitionLaw c ∧ (∀ l ∈ c.st2.lasts, WellFormedDraw c l) ↔ m.lowest < m.highest) ∧
      (m.lowest < m.highest → ∀ (rng : Rng G) frames s g, Run c rng Any frames s g →
        (∀ l ∈ s.downParticles, l ∈ c.st2.lasts → WellFormedDraw c l) ∧
          Meets (downMotion c rng s.downParticles) (Moved c.st2 s.downParticles)
            fun _ ↦ False) := by
  have hcount : c.st2.firsts.length = m.highest - m.lowest + 1 := by
    rw [BarStateSpace.length_firsts, hst2, Meters.st2, hspace _ _ hm.le]
  have hle := hm.le
  have hlaw : m.lowest < m.highest → TransitionLaw c := fun hlt ↦
    transitionLaw (by omega) hlow hhigh
  refine ⟨⟨fun h ↦ ?_, fun hlt ↦ ⟨hlaw hlt, fun l ↦ wellFormedDraw (hlaw hlt) (by omega)⟩⟩, ?_⟩
  · by_contra hnot
    have hone : c.st2.firsts.length = 1 := by omega
    have hlasts : 0 < c.st2.lasts.length := by
      rw [BarStateSpace.length_lasts, ← BarStateSpace.length_firsts, hone]
      exact one_pos
    exact not_wellFormedDraw hone (h.2 _ (List.getElem_mem hlasts))
  · intro hlt rng frames s g _
    exact ⟨fun l _ ↦ wellFormedDraw (hlaw hlt) (by omega),
      meets_downMotion_law (hlaw hlt) (by omega) _⟩

def GapFree (m : Meters) : Prop := ∀ n, m.lowest ≤ n → n ≤ m.highest → n ∈ m.beatsPerBar

/-- In every state of every run the bar length of every downbeat particle is one of the list. -/
def Tracked (G : Type) (c : Config) (m : Meters) : Prop :=
  ∀ (rng : Rng G) frames s g, Run c rng Any frames s g → ∀ p ∈ s.downParticles,
    ∃ n ∈ m.beatsPerBar, c.st2.stateIntervals[p]? = some n

theorem tracked_of_gapFree (hmem : ∀ n, n ∈ c.st2.intervals ↔ m.lowest ≤ n ∧ n ≤ m.highest)
    (hne : c.st2.intervals ≠ []) (hgap : GapFree m) : Tracked G c m := by
  intro rng frames s g hrun p hp
  have hlt := (hrun.valid hne).downParticles p hp
  rw [← BarStateSpace.length_stateIntervals] at hlt
  have hlabel := List.getElem?_eq_getElem hlt
  obtain ⟨hlow, hhigh⟩ := (hmem _).mp (mem_of_labels hlabel)
  exact ⟨_, hgap _ hlow hhigh, hlabel⟩

def Rng.steady (p : ℕ) : Rng Unit :=
  { Rng.least with
    integers := fun n size g ↦ (List.replicate size (if p < n then p else 0), g)
    length_integers := by simp
    integers_lt := by
      intro n size g hn x hx
      rw [List.eq_of_mem_replicate hx]
      split_ifs with h
      · exact h
      · exact hn }

theorem exists_run_steady {p : ℕ} (hp : p + 1 < c.st2.numStates) (hst : 1 < c.st.numStates)
    (hsize : 0 < c.downParticleSize) :
    ∃ s, Run c (Rng.steady p) Any [] s () ∧ p ∈ s.downParticles := by
  have hparticles : ∀ n size, n ≠ 0 → (drawIntegers (Rng.steady p) n size).run () =
      .ok ((List.replicate size (if p < n then p else 0)), ()) := fun n size hn ↦
    if_neg fun h ↦ hn h.1
  have hbuild : (build c (Rng.steady p)).run () = .ok ({
      counter := -1
      beats := []
      particles := (List.replicate c.particleSize
        (if p < c.st.numStates - 1 then p else 0)).insertionSort (· ≤ ·)
      downParticles := (List.replicate c.downParticleSize
        (if p < c.st2.numStates - 1 then p else 0)).insertionSort (· ≤ ·) }, ()) :=
    run_bind_ok.mpr ⟨_, _, hparticles _ _ (by omega),
      run_bind_ok.mpr ⟨_, _, hparticles _ _ (by omega), run_pure_ok.mpr ⟨rfl, rfl⟩⟩⟩
  refine ⟨_, ⟨(), _, (), hbuild, .nil _ _⟩, ?_⟩
  refine (List.perm_insertionSort (· ≤ ·) _).mem_iff.mpr (List.mem_replicate.mpr ⟨hsize.ne', ?_⟩)
  rw [if_pos (by omega)]

/-- Every meter of the list is the bar length of a state. No other one is ever tracked when the
list has no gaps, and otherwise a run can start in a gap. -/
theorem only_requested_meters
    (hspace : ∀ lo hi, 1 ≤ lo → lo ≤ hi →
      (barStateSpace lo hi (hi - lo + 1)).intervals = List.range' lo (hi - lo + 1))
    (hne : m.beatsPerBar ≠ []) (hbeats : ∀ n ∈ m.beatsPerBar, 2 ≤ n)
    (hst2 : c.st2 = m.st2 barStateSpace) :
    (∀ n ∈ m.beatsPerBar, n ∈ c.st2.stateIntervals) ∧ (GapFree m → Tracked G c m) ∧
      (0 < c.downParticleSize → 1 < c.st.numStates → Tracked Unit c m → GapFree m) := by
  have hlow := hbeats _ (Meters.lowest_mem hne)
  have hle := (Meters.between (Meters.lowest_mem hne)).2
  have hintervals : c.st2.intervals =
      List.range' m.lowest (m.highest - m.lowest + 1) := by
    rw [hst2, Meters.st2, hspace _ _ (by omega) hle]
  have hmem : ∀ n, n ∈ c.st2.intervals ↔ m.lowest ≤ n ∧ n ≤ m.highest := fun n ↦ by
    rw [hintervals, List.mem_range'_1]
    omega
  refine ⟨fun n hn ↦ ?_, tracked_of_gapFree hmem fun hnil ↦ ?_,
    fun hsize hst htracked n hn hn' ↦ ?_⟩
  · have hpos := hbeats n hn
    exact (mem_labels (by omega)).mpr ((hmem n).mpr (Meters.between hn))
  · have hlowest := (hmem m.lowest).mpr ⟨le_rfl, hle⟩
    rw [hnil] at hlowest
    cases hlowest
  · by_contra hgap
    have hlast : c.st2.intervals.getLast? = some m.highest := by
      rw [hintervals, List.getLast?_range', if_neg (by omega)]
      congr 1
      omega
    have hother : n ≠ m.highest := fun h ↦ hgap (h ▸ Meters.highest_mem hne)
    obtain ⟨p, hp, hlabel⟩ :=
      exists_label ((hmem n).mpr ⟨hn, hn'⟩) (by omega) hlast (by omega) hother
    obtain ⟨s, hrun, hps⟩ := exists_run_steady hp hst hsize
    obtain ⟨n', hn', hlabel'⟩ := htracked _ _ _ _ hrun p hps
    cases hlabel.symm.trans hlabel'
    exact hgap hn'

end Madmom

section Small

def rangeSpace (lo hi _ : ℕ) : BarStateSpace where
  intervals := (List.range' lo (hi - lo + 1)).map (max 1)
  intervals_pos := by
    intro n hn
    obtain ⟨k, _, rfl⟩ := List.mem_map.mp hn
    exact lt_max_of_lt_left one_pos

theorem length_rangeSpace (lo hi : ℕ) (_ : lo ≤ hi) :
    (rangeSpace lo hi (hi - lo + 1)).intervals.length = hi - lo + 1 := by simp [rangeSpace]

theorem intervals_rangeSpace (lo hi : ℕ) (hlo : 1 ≤ lo) (_ : lo ≤ hi) :
    (rangeSpace lo hi (hi - lo + 1)).intervals = List.range' lo (hi - lo + 1) := by
  refine (List.map_congr_left fun n hn ↦ ?_).trans (List.map_id _)
  exact max_eq_right (hlo.trans (List.mem_range'_1.mp hn).1)

theorem downbeat_transition_law_two_meters :
    TransitionLaw (small 0 (4 / 10)) ∧
      ∀ l ∈ (small 0 (4 / 10)).st2.lasts, WellFormedDraw (small 0 (4 / 10)) l :=
  (downbeat_transition_law (G := Unit) (c := small 0 (4 / 10)) (m := ⟨[3, 2], 2, 4⟩)
    length_rangeSpace (by decide +kernel) rfl (by decide +kernel)
    (by decide +kernel)).1.mpr (by decide)

def oneMeter : Config :=
  { small 0 (4 / 10) with st2 := ⟨[4], by decide⟩, om2 := ⟨.border [2, 0, 0, 0], rfl⟩ }

/-- The only row of the matrix is nine tenths. -/
theorem single_meter_unlawful :
    ¬ ∀ (barStateSpace : ℕ → ℕ → ℕ → BarStateSpace) (m : Meters) (c : Config),
      (∀ lo hi, lo ≤ hi → (barStateSpace lo hi (hi - lo + 1)).intervals.length = hi - lo + 1) →
        m.Accepted → c.st2 = m.st2 barStateSpace → 0 ≤ c.lambdaD → c.lambdaD ≤ 1 →
          TransitionLaw c ∧ ∀ l ∈ c.st2.lasts, WellFormedDraw c l := by
  intro h
  have hlaw := (h rangeSpace ⟨[4], 2, 4⟩ oneMeter length_rangeSpace (by decide +kernel) rfl
    (by decide +kernel) (by decide +kernel)).1
  have hsum := hlaw.sum [1 - 1 / 10] (by decide +kernel)
  exact absurd hsum (by decide +kernel)

theorem only_requested_meters_two :
    Tracked Unit (small 0 (4 / 10)) ⟨[3, 2], 2, 4⟩ := by
  refine (only_requested_meters (G := Unit) (c := small 0 (4 / 10)) intervals_rangeSpace (by decide)
    (by decide) rfl).2.1 fun n hlow hhigh ↦ ?_
  have hcases : n = 2 ∨ n = 3 := by
    have hlow' : 2 ≤ n := hlow
    have hhigh' : n ≤ 3 := hhigh
    omega
  rcases hcases with rfl | rfl <;> decide

def gapMeters : Config :=
  { small 0 (4 / 10) with
    st2 := ⟨[2, 3, 4], by decide⟩
    om2 := ⟨.border [2, 0, 2, 0, 0, 2, 0, 0, 0], rfl⟩ }

/-- Asked for two and four beats, it tracks three. -/
theorem meters_between_tracked :
    ¬ ∀ (barStateSpace : ℕ → ℕ → ℕ → BarStateSpace) (m : Meters) (c : Config),
      (∀ lo hi, 1 ≤ lo → lo ≤ hi →
        (barStateSpace lo hi (hi - lo + 1)).intervals = List.range' lo (hi - lo + 1)) →
        m.beatsPerBar ≠ [] → (∀ n ∈ m.beatsPerBar, 2 ≤ n) → c.st2 = m.st2 barStateSpace →
          Tracked Unit c m ∧ ∀ n ∈ m.beatsPerBar, n ∈ c.st2.stateIntervals := by
  intro h
  have htracked := (h rangeSpace ⟨[2, 4], 2, 4⟩ gapMeters intervals_rangeSpace (by decide)
    (by decide) rfl).1
  obtain ⟨s, hrun, hmem⟩ := exists_run_steady (c := gapMeters) (p := 2) (by decide) (by decide)
    (by decide)
  obtain ⟨n, hn, hlabel⟩ := htracked _ _ _ _ hrun 2 hmem
  have hthree : gapMeters.st2.stateIntervals[2]? = some 3 := by decide
  cases hthree.symm.trans hlabel
  exact absurd hn (by decide)

end Small

end BeatNet
