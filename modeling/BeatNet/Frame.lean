import BeatNet.Cascade
import BeatNet.Library.Shuffles

namespace BeatNet

open Numpy Library.Effects Library.Shuffles

/-- The errors a computation may end in: under `S`, no index is out of range. -/
def Guarded (S : Prop) (e : PyError) : Prop := S → e ≠ .indexError

variable {G : Type} {c : Config} {rng : Rng G} {S : Prop}

theorem guarded_value : Guarded S .valueError := fun _ ↦ by decide

theorem guarded_type : Guarded S .typeError := fun _ ↦ by decide

theorem guarded_zero : Guarded S .zeroDivisionError := fun _ ↦ by decide

theorem meets_lift_guarded {α : Type} {y : Except PyError α} {P : α → Prop}
    (hP : ∀ a, y = .ok a → P a) (hok : S → ∃ a, y = .ok a) :
    Meets (liftM y : Draw G α) P (Guarded S) := by
  refine Meets.lift hP fun e he hsafe ↦ ?_
  obtain ⟨a, ha⟩ := hok hsafe
  rw [ha] at he
  cases he

/-- Where a particle may go in one motion: from a last state to a good one, otherwise to the next
state. -/
def MovesTo (lasts : List ℕ) (good : ℕ → ℕ → Prop) (y x : ℕ) : Prop :=
  if y ∈ lasts then good y x else x = y + 1

theorem meets_motion {lasts particles : List ℕ} {jump : ℕ → Draw G ℕ} {good : ℕ → ℕ → Prop}
    {E : PyError → Prop} (hjump : ∀ l ∈ particles, l ∈ lasts → Meets (jump l) (good l) E) :
    Meets (motion lasts jump particles) (Shuffled (MovesTo lasts good) particles) E := by
  have hstay : List.Forall₂ (MovesTo lasts good) (particles.filter (· ∉ lasts))
      ((particles.filter (· ∉ lasts)).map (· + 1)) := by
    rw [List.forall₂_map_right_iff, List.forall₂_same]
    intro y hy
    have hyl : y ∉ lasts := by simpa using (List.mem_filter.mp hy).2
    rw [MovesTo, if_neg hyl]
  -- the particles that have jumped so far, and those that still have to
  let I (rest state : List ℕ) : Prop := ∃ jumped images,
    particles.filter (· ∈ lasts) = jumped ++ rest ∧
      List.Forall₂ (MovesTo lasts good) jumped images ∧
      state = (particles.filter (· ∉ lasts)).map (· + 1) ++ images
  have hfold : Meets (motion lasts jump particles) (I []) E := by
    refine Meets.foldlM_rest (I := I) ?_ ⟨[], [], rfl, .nil, (List.append_nil _).symm⟩
    intro l rest state hl hI
    obtain ⟨jumped, images, hsplit, hjumped, rfl⟩ := hI
    have hl' := List.mem_filter.mp hl
    have hlast : l ∈ lasts := by simpa using hl'.2
    refine (hjump l hl'.1 hlast).bind fun nn hnn ↦ Meets.pure ?_
    have hto : MovesTo lasts good l nn := by
      rw [MovesTo, if_pos hlast]
      exact hnn
    refine ⟨jumped ++ [l], images ++ [nn], ?_, ?_, ?_⟩
    · rw [hsplit, List.append_assoc]
      rfl
    · exact List.rel_append hjumped (.cons hto .nil)
    · rw [List.append_assoc]
  refine hfold.mono (fun out hout ↦ ?_) fun _ he ↦ he
  obtain ⟨jumped, images, hsplit, hjumped, rfl⟩ := hout
  rw [List.append_nil] at hsplit
  refine Shuffled.of_split (p := fun x ↦ decide (x ∉ lasts)) hstay ?_
  have hnot : (fun x ↦ !decide (x ∉ lasts)) = fun x ↦ decide (x ∈ lasts) := by
    funext x
    simp
  rw [hnot, hsplit]
  exact hjumped

theorem meets_downJump {l : ℕ} (hl : l ∈ c.st2.lasts) :
    Meets (downJump c rng l) (· ∈ c.st2.firsts) (Guarded S) := by
  obtain ⟨arg, harg, hlt⟩ := argwhereFirst_of_mem hl
  have hrow : arg < c.tm2.length := by simpa [Config.tm2] using hlt
  refine Meets.bind_lift harg (Meets.bind_lift (item_of_lt hrow) ?_)
  exact meets_drawChoice guarded_value guarded_type _ _

/-- A single transition is squeezed to a number, from which nothing can be drawn. -/
theorem meets_beatJump_fails {l : ℕ} (hone : ¬ 2 ≤ (c.tm.rows.filter (·.prev = l)).length) :
    Meets (beatJump c rng l) (fun _ ↦ False) (Guarded S) := by
  rw [beatJump]
  cases hargs : c.tm.rows.filter (·.prev = l) with
  | nil => exact fun g ↦ guarded_value
  | cons t args =>
    rw [hargs, List.length_cons] at hone
    obtain rfl : args = [] := List.length_eq_zero_iff.mp (by omega)
    exact meets_drawChoice_scalar guarded_value guarded_type _ t.prob

theorem meets_beatJump {l : ℕ} (hl : l ∈ c.st.lasts) :
    Meets (beatJump c rng l) (· ∈ c.st.firsts) (Guarded S) := by
  by_cases htwo : 2 ≤ (c.tm.rows.filter (·.prev = l)).length
  · rw [beatJump, squeeze_of_two_le (by rwa [List.length_map])]
    refine (meets_drawChoice guarded_value guarded_type _ _).mono (fun x hx ↦ ?_) fun _ he ↦ he
    obtain ⟨t, ht, rfl⟩ := List.mem_map.mp hx
    have ht' := List.mem_filter.mp ht
    have hprev : t.prev = l := by simpa using ht'.2
    exact c.tm.from_last t ht'.1 (hprev ▸ hl)
  · exact (meets_beatJump_fails htwo).mono (fun _ hf ↦ hf.elim) fun _ he ↦ he

def Moved (st : BarStateSpace) (particles out : List ℕ) : Prop :=
  out.length = particles.length ∧
    ((∀ p ∈ particles, p < st.numStates) → ∀ p ∈ out, p < st.numStates)

theorem meets_motion_moved {st : BarStateSpace} {jump : ℕ → Draw G ℕ} {E : PyError → Prop}
    (hjump : ∀ l, l ∈ st.lasts → Meets (jump l) (· ∈ st.firsts) E) (particles : List ℕ) :
    Meets (motion st.lasts jump particles) (Moved st particles) E := by
  refine (meets_motion fun l _ hl ↦ hjump l hl).mono (fun out hout ↦ ?_) fun _ he ↦ he
  refine ⟨hout.length_eq, fun hp x hx ↦ ?_⟩
  obtain ⟨y, hy, hto⟩ := hout.exists_of_mem hx
  rw [MovesTo] at hto
  split_ifs at hto with hyl
  · exact BarStateSpace.firsts_lt hto
  · rw [hto]
    exact BarStateSpace.succ_lt_numStates (hp y hy) hyl

theorem meets_downMotion (downParticles : List ℕ) :
    Meets (downMotion c rng downParticles) (Moved c.st2 downParticles) (Guarded S) :=
  meets_motion_moved (fun _ hl ↦ meets_downJump hl) downParticles

theorem meets_beatMotion (particles : List ℕ) :
    Meets (beatMotion c rng particles) (Moved c.st particles) (Guarded S) :=
  meets_motion_moved (fun _ hl ↦ meets_beatJump hl) particles

theorem meets_take {weights : List ℚ} {particles : List ℕ}
    (hs : S → ∀ p ∈ particles, p < weights.length) :
    Meets (liftM (take weights particles) : Draw G (List ℚ))
      (fun w ↦ w.length = particles.length) (Guarded S) :=
  meets_lift_guarded (fun _ hw ↦ take_length hw) fun hsafe ↦ take_of_lt (hs hsafe)

theorem meets_downDensities (a : Activation) :
    Meets (liftM (downDensities a c.om2) : Draw G (List ℚ))
      (fun w ↦ c.st2.numStates ≤ w.length) (Guarded S) := by
  refine Meets.lift (fun w hw ↦ (downDensities_ok hw).1) fun e he ↦ ?_
  rw [downDensities] at he
  split at he
  · cases he
  · rename_i first second _
    cases hb : broadcastMul first [a.beat, a.downbeat] with
    | ok w => rw [hb] at he; cases he
    | error e' =>
      rw [hb] at he
      cases he
      rw [broadcastMul] at hb
      split_ifs at hb
      cases hb
      exact guarded_value

theorem meets_deleteDrawn {n : ℕ} {l : List ℕ} (hs : S → n ≤ l.length) :
    Meets (deleteDrawn rng n 1 l)
      (fun out ↦ out.length + 1 = l.length ∧ ∀ x ∈ out, x ∈ l) (Guarded S) := by
  refine (meets_drawSubset guarded_value n 1).bind fun pos hpos ↦ meets_lift_guarded ?_ ?_
  · intro out hout
    obtain ⟨p, rfl⟩ := List.length_eq_one_iff.mp hpos.1
    exact ⟨delete_one hout, delete_mem hout⟩
  · exact fun hsafe ↦ delete_of_lt fun p hp ↦ lt_of_lt_of_le (hpos.2 p hp) (hs hsafe)

def downInjected (c : Config) (a : Activation) : ℕ :=
  if 7 / 10 < a.downbeat then c.st2.intervals.length else 0

def downDeleted (a : Activation) : ℕ := if 7 / 10 < a.downbeat then 1 else 0

theorem length_downInjection (a : Activation) (l : List ℕ) :
    (downInjection c a l).length = l.length + downInjected c a := by
  rw [downInjection, downInjected]
  split <;> simp

theorem mem_downInjection {a : Activation} {l : List ℕ} {x : ℕ}
    (hx : x ∈ downInjection c a l) : x ∈ l ∨ x ∈ c.st2.firsts := by
  rw [downInjection] at hx
  split_ifs at hx
  · simpa using hx
  · exact .inl hx

theorem meets_downDeletion {a : Activation} {l : List ℕ}
    (hs : S → c.downParticleSize ≤ l.length) :
    Meets (downDeletion c rng a l)
      (fun out ↦ out.length + downDeleted a = l.length ∧ ∀ x ∈ out, x ∈ l) (Guarded S) := by
  rw [downDeletion, downDeleted]
  split_ifs
  · exact meets_deleteDrawn hs
  · exact Meets.pure ⟨rfl, fun _ hx ↦ hx⟩

theorem meets_downCorrection {a : Activation} {particles : List ℕ}
    (hs : S → (∀ p ∈ particles, p < c.st2.numStates) ∧ c.downParticleSize ≤ particles.length) :
    Meets (downCorrection c rng a particles)
      (fun out ↦ out.length + downDeleted a = particles.length + downInjected c a ∧
        ∀ x ∈ out, x ∈ particles ∨ x ∈ c.st2.firsts) (Guarded S) := by
  have hlen := length_downInjection (c := c) a particles
  have hvalid : S → ∀ p ∈ downInjection c a particles, p < c.st2.numStates := by
    intro hsafe p hp
    rcases mem_downInjection hp with h | h
    · exact (hs hsafe).1 p h
    · exact BarStateSpace.firsts_lt h
  refine (meets_downDensities a).bind fun obs2 hobs ↦ ?_
  refine (meets_take fun hsafe p hp ↦ lt_of_lt_of_le (hvalid hsafe p hp) hobs).bind
    fun weights hw ↦ ?_
  refine (meets_universalResample hw guarded_zero).bind fun resampled hr ↦ ?_
  have hsize : S → c.downParticleSize ≤ resampled.length := fun hsafe ↦ by
    have h := (hs hsafe).2
    omega
  refine (meets_downDeletion hsize).mono (fun out hout ↦ ?_) fun _ he ↦ he
  exact ⟨by omega, fun x hx ↦ mem_downInjection (hr.2 x (hout.2 x hx))⟩

structure Injected (c : Config) (x : ℚ) (particles out : List ℕ) : Prop where
  mem : ∀ p ∈ out, p ∈ particles ∨ p ∈ c.st.firsts
  length_le : particles.length ≤ out.length
  quiet : x ≤ 8 / 10 → out.length = particles.length
  loud : 8 / 10 < x → ∃ start < 4,
    out.length = particles.length + (arange start c.st.intervals.length 6).length

theorem meets_beatInjection (x : ℚ) (particles : List ℕ) :
    Meets (beatInjection c rng x particles) (Injected c x particles) (Guarded S) := by
  rw [beatInjection]
  split_ifs with hloud
  · refine (meets_drawRandint (by decide)).bind fun start hstart ↦ ?_
    have hidx : ∀ i ∈ arange start c.st.firsts.length 6, i < c.st.firsts.length :=
      fun i hi ↦ mem_arange (by decide) hi
    refine (meets_lift_guarded (P := fun new ↦
      new.length = (arange start c.st.intervals.length 6).length ∧ ∀ p ∈ new, p ∈ c.st.firsts)
      (fun new hnew ↦ ?_) fun _ ↦ take_of_lt hidx).bind fun new hnew ↦ ?_
    · exact ⟨by simpa using take_length hnew, take_mem hnew⟩
    · refine Meets.pure ⟨fun p hp ↦ ?_, by simp, fun hx ↦ absurd hloud hx.not_gt, fun _ ↦ ?_⟩
      · rcases List.mem_append.mp hp with hp | hp
        · exact .inl hp
        · exact .inr (hnew.2 p hp)
      · exact ⟨start, hstart, by rw [List.length_append, hnew.1]⟩
  · exact Meets.pure ⟨fun p hp ↦ .inl hp, le_rfl, fun _ ↦ rfl, fun hx ↦ absurd hx hloud⟩

theorem meets_beatDeletion {x : ℚ} {l : List ℕ} (hs : S → c.particleSize ≤ l.length) :
    Meets (beatDeletion c rng x l) (fun _ ↦ True) (Guarded S) := by
  rw [beatDeletion]
  split_ifs
  · exact (meets_deleteDrawn hs).mono (fun _ _ ↦ trivial) fun _ he ↦ he
  · exact Meets.pure trivial

theorem meets_beatCorrection {x : ℚ} {particles : List ℕ}
    (hs : S → (∀ p ∈ particles, p < c.st.numStates) ∧ c.particleSize ≤ particles.length) :
    Meets (beatCorrection c rng x particles)
      (fun out ↦ Injected c x particles out ∧ (x ≤ 1 / 10 → out = particles)) (Guarded S) := by
  rw [beatCorrection]
  split_ifs with hact
  · refine (meets_beatInjection x particles).bind fun injected hinj ↦ ?_
    have hvalid : S → ∀ p ∈ injected, p < (beatDensities x c.om).length := by
      intro hsafe p hp
      rw [length_beatDensities]
      rcases hinj.mem p hp with h | h
      · exact (hs hsafe).1 p h
      · exact BarStateSpace.firsts_lt h
    refine (meets_take hvalid).bind fun weights hw ↦ ?_
    refine (meets_universalResample hw guarded_zero).bind fun resampled hr ↦ ?_
    have hsize : S → c.particleSize ≤ resampled.length := fun hsafe ↦ by
      have h := (hs hsafe).2
      have hle := hinj.length_le
      omega
    refine (meets_beatDeletion hsize).bind fun _ _ ↦ Meets.pure ⟨?_, fun hx ↦ absurd hact hx.not_gt⟩
    exact {
      mem := fun p hp ↦ hinj.mem p (hr.2 p hp)
      length_le := hr.1 ▸ hinj.length_le
      quiet := fun hx ↦ hr.1.trans (hinj.quiet hx)
      loud := fun hx ↦ hr.1 ▸ hinj.loud hx }
  · have hquiet : ¬ 8 / 10 < x := fun hx ↦ hact (lt_trans (by norm_num) hx)
    exact Meets.pure ⟨⟨fun p hp ↦ .inl hp, le_rfl, fun _ ↦ rfl, fun hx ↦ absurd hx hquiet⟩,
      fun _ ↦ rfl⟩

theorem meets_beatGate {s : Cascade} (hs : S → ∀ p ∈ s.particles, p < c.st.numStates) :
    Meets (liftM (beatGate c s) : Draw G Bool) (fun b ↦ beatGate c s = .ok b)
      (Guarded S) := by
  refine Meets.lift (fun b hb ↦ hb) fun e he hsafe ↦ ?_
  rw [beatGate, gathering] at he
  cases hm : median s.particles with
  | none =>
    rw [hm] at he
    cases he
    decide
  | some q =>
    rw [hm] at he
    have hq := median_lt hm (hs hsafe)
    have hlt : (pyInt q).toNat < c.st.stateIntervals.length := by
      rw [BarStateSpace.length_stateIntervals]
      exact pyInt_lt hq.1 hq.2
    simp only [bind, Except.bind, item_of_lt hlt] at he
    cases he

/-- What the downbeat stage does: the downbeat population moves and is
corrected, at most one row is reported, nothing else changes. -/
structure Staged (c : Config) (a : Activation) (s t : Cascade) : Prop where
  report : ∃ dm, t = report c a dm { s with downParticles := t.downParticles }
  length : t.downParticles.length + downDeleted a = s.downParticles.length + downInjected c a
  valid : (∀ p ∈ s.downParticles, p < c.st2.numStates) →
    ∀ p ∈ t.downParticles, p < c.st2.numStates

theorem meets_downbeatStage {a : Activation} {s : Cascade}
    (hs : S → (∀ p ∈ s.downParticles, p < c.st2.numStates) ∧
      c.downParticleSize ≤ s.downParticles.length) :
    Meets (downbeatStage c rng a s) (Staged c a s) (Guarded S) := by
  refine (meets_downMotion s.downParticles).bind fun moved hm ↦ ?_
  refine (meets_downCorrection (fun hsafe ↦ ⟨hm.2 (hs hsafe).1, hm.1 ▸ (hs hsafe).2⟩)).bind
    fun corrected hc ↦ ?_
  refine (Meets.lift (P := fun _ ↦ True) (fun _ _ ↦ trivial) fun e he ↦ ?_).bind
    fun dm _ ↦ Meets.pure ⟨⟨dm, rfl⟩, hc.1.trans (by rw [hm.1]), fun hv p hp ↦ ?_⟩
  · rw [downMax, argmax] at he
    split_ifs at he
    cases he
    exact guarded_value
  · rcases hc.2 p hp with h | h
    · exact hm.2 hv p h
    · exact BarStateSpace.firsts_lt h

def Due (c : Config) (s : Cascade) : Prop := beatGate c s.tick = .ok true

instance (c : Config) (s : Cascade) : Decidable (Due c s) :=
  inferInstanceAs (Decidable (beatGate c s.tick = .ok true))

structure FrameStep (c : Config) (a : Activation) (s s' : Cascade) : Prop where
  stage : ∃ t, s' = { t with particles := s'.particles } ∧
    ((Due c s ∧ Staged c a s.tick t) ∨ (¬ Due c s ∧ t = s.tick))
  beat : ∃ moved, Moved c.st s.particles moved ∧ Injected c (c.gated a) moved s'.particles ∧
    (c.gated a ≤ 1 / 10 → s'.particles = moved)

structure Valid (c : Config) (s : Cascade) : Prop where
  particles : ∀ p ∈ s.particles, p < c.st.numStates
  downParticles : ∀ p ∈ s.downParticles, p < c.st2.numStates
  size : c.particleSize ≤ s.particles.length
  downSize : c.downParticleSize ≤ s.downParticles.length

theorem meets_processFrame {a : Activation} {s : Cascade} (hs : S → Valid c s) :
    Meets (processFrame c rng a s) (FrameStep c a s) (Guarded S) := by
  refine (meets_beatGate (s := s.tick) fun hsafe ↦ (hs hsafe).particles).bind fun due hdue ↦ ?_
  have hstage : Meets (gatedStage c rng a due s.tick)
      (fun t ↦ t.particles = s.particles ∧
        ((Due c s ∧ Staged c a s.tick t) ∨ (¬ Due c s ∧ t = s.tick))) (Guarded S) := by
    cases due with
    | true =>
      have hdown : Meets (downbeatStage c rng a s.tick) (Staged c a s.tick) (Guarded S) :=
        meets_downbeatStage fun hsafe ↦ ⟨(hs hsafe).downParticles, (hs hsafe).downSize⟩
      refine hdown.mono (fun t ht ↦ ?_) fun _ he ↦ he
      obtain ⟨dm, hdm⟩ := ht.report
      exact ⟨by rw [hdm]; rfl, .inl ⟨hdue, ht⟩⟩
    | false =>
      have hnot : ¬ Due c s := by
        intro h
        rw [Due, hdue] at h
        cases h
      exact Meets.pure ⟨rfl, .inr ⟨hnot, rfl⟩⟩
  refine hstage.bind fun t ht ↦ ?_
  refine Meets.bind (M := fun out ↦ ∃ moved, Moved c.st s.particles moved ∧
    Injected c (c.gated a) moved out ∧ (c.gated a ≤ 1 / 10 → out = moved)) ?_ fun out hout ↦
      Meets.pure ⟨⟨t, rfl, ht.2⟩, hout⟩
  refine (meets_beatMotion t.particles).bind fun moved hmoved ↦ ?_
  rw [ht.1] at hmoved
  refine (meets_beatCorrection fun hsafe ↦ ?_).mono (fun out hout ↦ ⟨moved, hmoved, hout⟩)
    fun _ he ↦ he
  exact ⟨hmoved.2 (hs hsafe).particles, hmoved.1 ▸ (hs hsafe).size⟩

namespace FrameStep

variable {a : Activation} {s s' : Cascade}

theorem counter (h : FrameStep c a s s') : s'.counter = s.counter + 1 := by
  obtain ⟨t, hs', ⟨_, ht⟩ | ⟨_, rfl⟩⟩ := h.stage
  · obtain ⟨dm, hdm⟩ := ht.report
    rw [hs', hdm]
    rfl
  · rw [hs']
    rfl

theorem beats (h : FrameStep c a s s') :
    (Due c s ∧ ∃ dm, s'.beats = s.beats ++ (reported c a dm s.tick).toList) ∨
      (¬ Due c s ∧ s'.beats = s.beats) := by
  obtain ⟨t, hs', ⟨hdue, ht⟩ | ⟨hdue, rfl⟩⟩ := h.stage
  · obtain ⟨dm, hdm⟩ := ht.report
    refine .inl ⟨hdue, dm, ?_⟩
    rw [hs', hdm]
    rfl
  · refine .inr ⟨hdue, ?_⟩
    rw [hs']
    rfl

end FrameStep

end BeatNet
