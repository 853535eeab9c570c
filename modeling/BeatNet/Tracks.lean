import BeatNet.Beats
import BeatNet.Realtime

namespace BeatNet

open Numpy Library.Effects

variable {α F H G : Type} {setup : Setup α F H} {mode : Mode} {c : Config} {rng : Rng G}

abbrev Session (G : Type) := StateT Cascade (Draw G)

def particleFilter (c : Config) (rng : Rng G) (activations : Activations) :
    Session G (List Row) :=
  fun s ↦ do
    let r ← process c rng activations s
    return (r.2, r.1)

inductive InferenceModel
  | PF | DBN

/-- The estimators a handler can be built with. The dynamic Bayesian network
comes from another package and keeps nothing from call to call. -/
def InferenceModel.estimator (c : Config) (rng : Rng G)
    (dbn : List Activation → Except PyError (List Row)) :
    InferenceModel → Estimator (Session G)
  | .PF => .PF (particleFilter c rng)
  | .DBN => .DBN fun preds ↦ liftM (liftM (dbn preds) : Draw G (List Row))

def track (setup : Setup α F H) (mode : Mode) (estimator : Estimator (Session G))
    (audioPath : AudioPath α) (o : Handler α H × Cascade) :
    Draw G ((Handler α H × Cascade) × List Row) := do
  let out ← (Handler.process setup mode false estimator (some audioPath) o.1).run o.2
  return ((out.1.1, out.2), out.1.2)

variable {dbn : List Activation → Except PyError (List Row)} {o : Handler α H × Cascade}
  {A : AudioPath α} {rows : List Row} {o' : Handler α H × Cascade} {g g' : G}

theorem run_particleFilter (activations : Activations) (s : Cascade) :
    (particleFilter c rng activations).run s =
      (fun r ↦ (r.2, r.1)) <$> process c rng activations s := by
  rw [map_eq_pure_bind]
  rfl

theorem run_ofExcept {β : Type} (x : Except PyError β) (s : Cascade) :
    (MonadExcept.ofExcept x : Session G β).run s = do
      let b ← (liftM x : Draw G β)
      return (b, s) := by
  cases x <;> rfl

theorem track_online_PF :
    track setup .online (InferenceModel.PF.estimator c rng dbn) A o = do
      let out ← liftM (Handler.activationExtractorOnline setup A o.1)
      let r ← process c rng (.rows out.2) o.2
      return ((out.1, r.1), r.2) := by
  simp [track, Handler.process, InferenceModel.estimator, run_particleFilter, run_ofExcept]

theorem track_PF_ok (hmode : mode ≠ .realtime)
    (h : (track setup mode (InferenceModel.PF.estimator c rng dbn) A o).run g =
      .ok ((o', rows), g')) :
    mode = .online ∧ ∃ acts, Handler.activationExtractorOnline setup A o.1 = .ok (o'.1, acts) ∧
      (process c rng (.rows acts) o.2).run g = .ok ((o'.2, rows), g') := by
  cases mode with
  | realtime => exact absurd rfl hmode
  | offline => cases h
  | online =>
    rw [track_online_PF] at h
    obtain ⟨⟨h', acts⟩, k, hlift, h⟩ := run_bind_ok.mp h
    obtain ⟨hacts, rfl⟩ := run_lift_ok.mp hlift
    obtain ⟨⟨t, path⟩, k, hr, hp⟩ := run_bind_ok.mp h
    obtain ⟨he, rfl⟩ := run_pure_ok.mp hp
    cases he
    exact ⟨rfl, acts, hacts, hr⟩

/-- The activations of a recording, as the network finds them from the given state. -/
def Setup.answer (setup : Setup α F H) (audioPath : AudioPath α) (hidden : H) :
    Except PyError (List Activation) :=
  Prod.fst <$> setup.forward (setup.processAudio (setup.readAudio audioPath)) hidden

theorem activationExtractorOnline_eq (h : Handler α H) :
    Handler.activationExtractorOnline setup A h =
      (setup.forward (setup.processAudio (setup.readAudio A)) h.hidden).map fun out ↦
        ({ h with hidden := out.2 }, out.1) := by
  rw [Handler.activationExtractorOnline]
  cases setup.forward (setup.processAudio (setup.readAudio A)) h.hidden <;> rfl

theorem Setup.answer_of_ok {h h' : Handler α H} {acts : List Activation}
    (hok : Handler.activationExtractorOnline setup A h = .ok (h', acts)) :
    setup.answer A h.hidden = .ok acts := by
  rw [activationExtractorOnline_eq] at hok
  rw [Setup.answer]
  cases hout : setup.forward (setup.processAudio (setup.readAudio A)) h.hidden with
  | error e =>
    rw [hout] at hok
    cases hok
  | ok out =>
    rw [hout] at hok
    cases hok
    rfl

theorem Setup.answer_ok {hidden : H} {acts : List Activation}
    (h : setup.answer A hidden = .ok acts) :
    acts = (setup.unroll (setup.processAudio (setup.readAudio A)) hidden).1 := by
  rw [Setup.answer] at h
  cases hfeats : setup.processAudio (setup.readAudio A) with
  | nil =>
    rw [hfeats] at h
    cases h
  | cons feat feats =>
    rw [hfeats] at h
    cases h
    rfl

theorem run_handAll (first : Activations) (calls : List Activations) (output : Option (List Row))
    (s : Cascade) :
    (Handler.handAll (particleFilter c rng) (first :: calls) output).run s =
      (fun r ↦ (some r.2, r.1)) <$> processCalls c rng first calls s := by
  induction calls generalizing first output s with
  | nil => simp [Handler.handAll, processCalls, run_particleFilter]
  | cons x calls ih =>
    have hstep : Handler.handAll (particleFilter c rng) (first :: x :: calls) output =
        particleFilter c rng first >>= fun rows ↦
          Handler.handAll (particleFilter c rng) (x :: calls) (some rows) := by
      simp [Handler.handAll]
    have hcalls : processCalls c rng first (x :: calls) s =
        process c rng first s >>= fun r ↦ processCalls c rng x calls r.1 := by
      simp [processCalls]
    rw [hstep, StateT.run_bind, run_particleFilter, hcalls, map_bind, bind_map_left]
    simp only [ih]

theorem track_realtime_PF (hframes : ∀ x, setup.processAudio x ≠ []) {first : Activations}
    {calls : List Activations} (hdel : delivered setup A o.1 = first :: calls) :
    ∃ h', track setup .realtime (InferenceModel.PF.estimator c rng dbn) A o = do
      let r ← processCalls c rng first calls o.2
      return ((h', r.1), r.2) := by
  obtain ⟨ps, hps⟩ := Setup.exists_predictions hframes (setup.readAudio A)
    (rounds setup.hop (setup.readAudio A).length).toNat 0 o.1.hidden
  rw [delivered_eq hps] at hdel
  cases hlast : ps.getLast?.or o.1.pred with
  | none =>
    obtain ⟨hnil, _⟩ := Option.or_eq_none_iff.mp hlast
    rw [hlast, List.getLast?_eq_none_iff.mp hnil] at hdel
    cases hdel
  | some last =>
    obtain ⟨h', hprocess⟩ := Handler.process_hands (particleFilter c rng) hps hlast
    rw [hlast, Option.toList_some] at hdel
    rw [hdel] at hprocess
    refine ⟨h', ?_⟩
    simp [track, InferenceModel.estimator, hprocess, run_handAll, Handler.returned]

def listening : Setup Activation Activation Unit where
  hop := 1
  win := 1
  hop_pos := Nat.one_pos
  load _ := []
  mean samples := samples.headD silence
  processAudio samples := samples
  cell feat hidden := (feat, hidden)

def blank : Handler Activation Unit × Cascade := (⟨(), none, [], 0, false⟩, ⟨-1, [], [0], [0]⟩)

end BeatNet
