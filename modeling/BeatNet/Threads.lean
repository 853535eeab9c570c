import BeatNet.Tracks
import BeatNet.Chunks

namespace BeatNet

open Numpy Library.Effects

variable {α F H G : Type} {setup : Setup α F H} {c : Config} {rng : Rng G}
  {A : AudioPath α} {audio : List α} {h : Handler α H} {s s' : Cascade} {g g' : G}

theorem session_bind_ok {β γ : Type} {x : Session G β} {f : β → Session G γ} {b : γ} :
    ((x >>= f).run s).run g = .ok ((b, s'), g') ↔
      ∃ a t k, (x.run s).run g = .ok ((a, t), k) ∧ ((f a).run t).run k = .ok ((b, s'), g') := by
  rw [StateT.run_bind, run_bind_ok]
  exact ⟨fun ⟨r, k, hr, hf⟩ ↦ ⟨r.1, r.2, k, hr, hf⟩, fun ⟨a, t, k, hr, hf⟩ ↦ ⟨(a, t), k, hr, hf⟩⟩

theorem particleFilter_ok {x : Activations} {rows : List Row} :
    ((particleFilter c rng x).run s).run g = .ok ((rows, s'), g') ↔
      (process c rng x s).run g = .ok ((s', rows), g') := by
  apply Iff.intro
  · intro hrun
    obtain ⟨⟨t, out⟩, k, hr, hp⟩ := run_bind_ok.mp hrun
    obtain ⟨he, rfl⟩ := run_pure_ok.mp hp
    cases he
    exact hr
  · intro hrun
    exact run_bind_ok.mpr ⟨_, _, hrun, rfl⟩

theorem run_discard (x : Session G (List Row)) (s : Cascade) (g : G) :
    ((discard x).run s).run g = ((x.run s).run g).map fun r ↦ (((), r.1.2), r.2) := by
  change ((x.run s).run g).bind (fun r ↦ .ok (((), r.1.2), r.2)) = _
  cases (x.run s).run g <;> rfl

theorem Setup.eq_indexError {counter : ℕ} {hidden : H} {e : PyError}
    (he : setup.prediction audio counter hidden = .error e) : e = .indexError := by
  rw [prediction] at he
  split at he
  · cases he
  · split at he
    · cases he
      rfl
    · cases he

namespace Handler

theorem extract_error {e : PyError} (hlt : h.counter < rounds setup.hop audio.length)
    (haudio : (loadAudio setup A h).audio = audio)
    (hout : setup.prediction audio h.counter h.hidden = .error e) :
    activationExtractorRealtime setup A h = .error e := by
  rw [activationExtractorRealtime, loadAudio_of_audio haudio, extract, if_pos hlt, hout]
  rfl

section Threads

variable (process : Activations → Session G (List Row))

theorem run_inThread (a : Activation) (s : Cascade) (g : G) :
    ((inThread process (.rows [a])).run s).run g =
      .ok (match ((process (.row a)).run s).run g with
        | .ok r => (((), r.1.2), r.2)
        | .error _ => (((), s), g)) := by
  change (((discard (process (.row a))).run s).run g).tryCatch (fun _ ↦ .ok (((), s), g)) = _
  rw [run_discard]
  cases ((process (.row a)).run s).run g <;> rfl

theorem meets_inThread (pred : Activations) (s : Cascade) {E : PyError → Prop} :
    Meets ((inThread process pred).run s) (fun _ ↦ True) E := by
  intro g
  match pred with
  | .rows [a] =>
    rw [run_inThread]
    trivial
  | .rows [] => trivial
  | .rows (_ :: _ :: _) => trivial
  | .row _ => trivial

theorem meets_hand (output : Option (List Row)) (pred : Activations) (s : Cascade)
    {E : PyError → Prop} :
    Meets ((hand process true output pred).run s) (fun r ↦ r.1 = output) E := by
  rw [hand, if_pos rfl, StateT.run_bind]
  exact (meets_inThread process pred s).bind fun r _ ↦ Meets.pure rfl

theorem meets_threaded_loop {n : ℕ} (hc : h.completed = false)
    (haudio : (loadAudio setup A h).audio = audio)
    (hn : (h.counter + n : ℤ) = rounds setup.hop audio.length) (s : Cascade) :
    Meets ((realtimeLoop setup process true A (n + 2) none h).run s) (fun _ ↦ False)
      (· ≠ .outOfFuel) := by
  induction n generalizing h s with
  | zero =>
    have hx := extract_done (by omega) haudio
    cases hp : h.pred with
    | none =>
      rw [realtimeLoop, hc, hx]
      intro g
      obtain ⟨hidden, pred, audio', counter, completed⟩ := h
      cases hp
      exact (by decide : PyError.attributeError ≠ .outOfFuel)
    | some pred =>
      rw [loop_step process hc hx hp, StateT.run_bind]
      refine (meets_hand process none pred s).bind fun r hr ↦ ?_
      rw [hr, loop_completed process rfl]
      exact Meets.throw (by decide)
  | succ n ih =>
    push_cast at hn
    cases hout : setup.prediction audio h.counter h.hidden with
    | error e =>
      rw [realtimeLoop, hc, extract_error (by omega) haudio hout]
      intro g
      rw [Setup.eq_indexError hout]
      exact (by decide : PyError.indexError ≠ .outOfFuel)
    | ok out =>
      have hx := extract_next (by omega) haudio hout
      rw [loop_step process hc hx rfl, StateT.run_bind]
      refine (meets_hand process none _ s).bind fun r hr ↦ ?_
      rw [hr]
      exact ih (h := { h with
        audio := audio, pred := some (.rows out.1), hidden := out.2, counter := h.counter + 1 })
        hc (by rw [loadAudio_eq (Nat.succ_ne_zero _)]) (by push_cast; omega) r.2

theorem threaded_process_fails (A : AudioPath α) (h : Handler α H) (s : Cascade) :
    Meets ((Handler.process setup .realtime true (.PF process) (some A) h).run s) (fun _ ↦ False)
      (· ≠ .outOfFuel) := by
  have hrounds := rounds_nonneg setup.hop (setup.readAudio A).length
  exact meets_threaded_loop (h := { h with counter := 0, completed := false }) process rfl
    loadAudio_start (by push_cast; omega) s

end Threads

end Handler

theorem run_inThread_particleFilter (h0 : 0 ≤ c.offset) {a : Activation} {rows : List Row}
    (hrun : ((particleFilter c rng (.rows [a])).run s).run g = .ok ((rows, s'), g')) :
    ((Handler.inThread (particleFilter c rng) (.rows [a])).run s).run g = .ok (((), s'), g') := by
  obtain ⟨frames, hframes, hsteps, rfl⟩ := process_ok.mp (particleFilter_ok.mp hrun)
  obtain ⟨_, hdrop⟩ := (framesOf_ok h0).mp hframes
  rw [Handler.run_inThread]
  by_cases hskip : c.skip = 0
  · have hrow : (process c rng (.row a) s).run g = .ok ((s', s'.beats), g') :=
      process_ok.mpr ⟨frames, (framesOf_ok h0).mpr ⟨.inl hskip, hdrop⟩, hsteps, rfl⟩
    rw [particleFilter_ok.mpr hrow]
  · -- the slice by the offset takes the row from the array and breaks the shape of the bare row
    have hnil : frames = [] := by
      rw [← hdrop]
      exact List.drop_eq_nil_of_le (Nat.one_le_iff_ne_zero.mpr hskip)
    subst hnil
    obtain ⟨rfl, rfl⟩ := run_pure_ok.mp hsteps
    cases hrow : ((particleFilter c rng (.row a)).run s).run g with
    | error e => rfl
    | ok r =>
      obtain ⟨frames, hframes, _⟩ := process_ok.mp (particleFilter_ok.mp hrow)
      exact absurd ((framesOf_ok h0).mp hframes).1 (by simp [hskip, Activations.isRows])

theorem run_foldlM_hand (h0 : 0 ≤ c.offset) {preds : List Activations}
    (hpreds : ∀ p ∈ preds, ∃ a, p = .rows [a]) {output output' out : Option (List Row)}
    (hrun : ((Handler.handAll (particleFilter c rng) preds output).run s).run g =
      .ok ((out, s'), g')) :
    ((preds.foldlM (Handler.hand (particleFilter c rng) true) output').run s).run g =
      .ok ((output', s'), g') := by
  induction preds generalizing s g output with
  | nil =>
    cases hrun
    rfl
  | cons pred preds ih =>
    obtain ⟨⟨a, rfl⟩, hrest⟩ := List.forall_mem_cons.mp hpreds
    rw [Handler.handAll, List.foldlM_cons] at hrun
    obtain ⟨next, t, k, hcall, hcalls⟩ := session_bind_ok.mp hrun
    rw [map_eq_pure_bind] at hcall
    obtain ⟨rows, t', k', hcall, hpure⟩ := session_bind_ok.mp hcall
    cases hpure
    rw [List.foldlM_cons]
    refine session_bind_ok.mpr ⟨output', t, k, ?_, ih hrest hcalls⟩
    exact session_bind_ok.mpr ⟨(), t, k, run_inThread_particleFilter h0 hcall, rfl⟩

theorem Setup.predictions_rows {n counter : ℕ} {hidden : H} {ps : List Activations}
    (hps : setup.predictions audio n counter hidden = .ok ps) :
    ∀ p ∈ ps, ∃ a, p = .rows [a] := by
  induction n generalizing counter hidden ps with
  | zero =>
    cases hps
    simp
  | succ n ih =>
    obtain ⟨out, hout, hps⟩ := except_bind_ok.mp hps
    obtain ⟨rest, hrest, hps⟩ := except_bind_ok.mp hps
    cases hps
    refine List.forall_mem_cons.mpr ⟨?_, ih hrest⟩
    rw [prediction] at hout
    split at hout
    · cases hout
      exact ⟨_, rfl⟩
    · split at hout
      · cases hout
      · cases hout
        exact ⟨_, rfl⟩

/-- Where a call without threads returns, the threads leave the particle filter in the same state
before the call raises. -/
theorem threaded_estimator (h0 : 0 ≤ c.offset) {ps : List Activations} {last : Activations}
    {out : Handler α H × List Row}
    (hps : setup.predictions (setup.readAudio A)
      (rounds setup.hop (setup.readAudio A).length).toNat 0 h.hidden = .ok ps)
    (hlast : ps.getLast?.or h.pred = some last) (hpred : ∀ p, h.pred = some p → ∃ a, p = .rows [a])
    (hrun : ((Handler.process setup .realtime false (.PF (particleFilter c rng)) (some A) h).run
      s).run g = .ok ((out, s'), g')) :
    ∃ h', Handler.process setup .realtime true (.PF (particleFilter c rng)) (some A) h =
        (ps ++ [last]).foldlM (Handler.hand (particleFilter c rng) true) none >>=
          Handler.returned h' ∧
      (((ps ++ [last]).foldlM (Handler.hand (particleFilter c rng) true) none).run s).run g =
        .ok ((none, s'), g') := by
  have hrounds := rounds_nonneg setup.hop (setup.readAudio A).length
  obtain ⟨h', hloop⟩ := Handler.loop_hands (h := { h with counter := 0, completed := false })
    (particleFilter c rng) true rfl Handler.loadAudio_start (by push_cast; omega) hps hlast
  refine ⟨h', hloop none, ?_⟩
  obtain ⟨h'', hprocess⟩ := Handler.process_hands (particleFilter c rng) hps hlast
  rw [hprocess] at hrun
  obtain ⟨output, t, k, hall, hreturned⟩ := session_bind_ok.mp hrun
  have hrows : ∀ p ∈ ps ++ [last], ∃ a, p = .rows [a] := by
    intro p hp
    rcases List.mem_append.mp hp with hp | hp
    · exact Setup.predictions_rows hps p hp
    · obtain rfl := List.mem_singleton.mp hp
      rcases Option.or_eq_some_iff.mp hlast with hlast | ⟨_, hlast⟩
      · exact Setup.predictions_rows hps p (List.mem_of_getLast? hlast)
      · exact hpred p hlast
  cases output with
  | none => cases hreturned
  | some rows =>
    cases hreturned
    exact run_foldlM_hand h0 hrows hall

/-- With and without threads a call in realtime mode returns, and the same. -/
def ThreadsAgree (setup : Setup α F H) (process : Activations → Session G (List Row))
    (A : AudioPath α) (h : Handler α H) (s : Cascade) (g : G) : Prop :=
  ∃ r, ((Handler.process setup .realtime true (.PF process) (some A) h).run s).run g = .ok r ∧
    ((Handler.process setup .realtime false (.PF process) (some A) h).run s).run g = .ok r

/-- With threads no call in realtime mode ever returns: it raises, after finitely many rounds. -/
theorem threaded_realtime (setup : Setup α F H) (process : Activations → Session G (List Row))
    (A : AudioPath α) (h : Handler α H) (s : Cascade) (g : G) :
    ¬ ThreadsAgree setup process A h s g ∧ ∃ e, e ≠ .outOfFuel ∧
      ((Handler.process setup .realtime true (.PF process) (some A) h).run s).run g = .error e := by
  obtain ⟨e, he, hrun⟩ := (Handler.threaded_process_fails process A h s).fails g
  refine ⟨fun hagree ↦ ?_, e, he, hrun⟩
  obtain ⟨r, hr, _⟩ := hagree
  rw [hrun] at hr
  cases hr

/-- One sample: without threads the call returns, with threads it raises. -/
theorem threaded_realtime_raises :
    ¬ ∀ (A : AudioPath ℕ) (h : Handler ℕ ℕ) (s : Cascade), counting.readAudio A ≠ [] →
      (((Handler.process counting .realtime false
        (.PF (particleFilter (small 0 (4 / 10)) Rng.least)) (some A) h).run s).run ()).isOk →
      ThreadsAgree counting (particleFilter (small 0 (4 / 10)) Rng.least) A h s () := by
  intro hall
  have hreturns : (((Handler.process counting .realtime false
      (.PF (particleFilter (small 0 (4 / 10)) Rng.least)) (some (.signal [5]))
      ⟨0, none, [], 0, false⟩).run ⟨-1, [], [0], [0]⟩).run ()).isOk := by decide +kernel
  obtain ⟨r, hr, _⟩ := hall (.signal [5]) ⟨0, none, [], 0, false⟩ ⟨-1, [], [0], [0]⟩ (by decide)
    hreturns
  obtain ⟨e, _, hraises⟩ := (Handler.threaded_process_fails
    (particleFilter (small 0 (4 / 10)) Rng.least) (.signal [5])
    (⟨0, none, [], 0, false⟩ : Handler ℕ ℕ) ⟨-1, [], [0], [0]⟩).fails ()
  rw [hraises] at hr
  cases hr

end BeatNet
