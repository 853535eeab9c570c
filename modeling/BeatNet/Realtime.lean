import BeatNet.Handler

namespace BeatNet

open Numpy Library.Effects

variable {α F H : Type} {setup : Setup α F H} {audioPath : AudioPath α} {h h' : Handler α H}
  {audio : List α}

def Setup.predictions (setup : Setup α F H) (audio : List α) :
    ℕ → ℕ → H → Except PyError (List Activations)
  | 0, _, _ => .ok []
  | n + 1, counter, hidden => do
    let out ← setup.prediction audio counter hidden
    let rest ← predictions setup audio n (counter + 1) out.2
    return .rows out.1 :: rest

theorem Setup.exists_prediction (hframes : ∀ x, setup.processAudio x ≠ []) (audio : List α)
    (counter : ℕ) (hidden : H) : ∃ out, setup.prediction audio counter hidden = .ok out := by
  rw [prediction]
  split_ifs
  · exact ⟨_, rfl⟩
  · rw [List.getLast?_eq_some_getLast (hframes _)]
    exact ⟨_, rfl⟩

theorem Setup.exists_predictions (hframes : ∀ x, setup.processAudio x ≠ []) (audio : List α)
    (n counter : ℕ) (hidden : H) :
    ∃ ps, setup.predictions audio n counter hidden = .ok ps := by
  induction n generalizing counter hidden with
  | zero => exact ⟨[], rfl⟩
  | succ n ih =>
    obtain ⟨out, hout⟩ := Setup.exists_prediction hframes audio counter hidden
    obtain ⟨rest, hrest⟩ := ih (counter + 1) out.2
    exact ⟨.rows out.1 :: rest,
      except_bind_ok.mpr ⟨out, hout, except_bind_ok.mpr ⟨rest, hrest, rfl⟩⟩⟩

theorem Setup.length_predictions {n counter : ℕ} {hidden : H} {ps : List Activations}
    (h : setup.predictions audio n counter hidden = .ok ps) : ps.length = n := by
  induction n generalizing counter hidden ps with
  | zero =>
    cases h
    rfl
  | succ n ih =>
    obtain ⟨out, _, h⟩ := except_bind_ok.mp h
    obtain ⟨rest, hrest, h⟩ := except_bind_ok.mp h
    cases h
    rw [List.length_cons, ih hrest]

/-- The monad of an inference model that only writes down what it is handed.
What is written stays written when an exception is raised. -/
abbrev Recorder := ExceptT PyError (StateM (List Activations))

def record (pred : Activations) : Recorder (List Row) := do
  modify (· ++ [pred])
  return []

def delivered (setup : Setup α F H) (audioPath : AudioPath α) (h : Handler α H) :
    List Activations :=
  ((Handler.process setup .realtime false (.PF record) (some audioPath) h).run.run []).2

namespace Handler

theorem loadAudio_eq (hcount : h.counter ≠ 0) : loadAudio setup audioPath h = h := by
  rw [loadAudio, if_neg hcount]

theorem loadAudio_of_audio (haudio : (loadAudio setup audioPath h).audio = audio) :
    loadAudio setup audioPath h = { h with audio := audio } := by
  rw [loadAudio] at haudio ⊢
  split_ifs at haudio ⊢ <;> subst haudio <;> rfl

theorem loadAudio_start :
    (loadAudio setup audioPath { h with counter := 0, completed := false }).audio =
      setup.readAudio audioPath := by
  rw [loadAudio, if_pos rfl]

theorem extract_next {out : List Activation × H}
    (hlt : h.counter < rounds setup.hop audio.length)
    (haudio : (loadAudio setup audioPath h).audio = audio)
    (hout : setup.prediction audio h.counter h.hidden = .ok out) :
    activationExtractorRealtime setup audioPath h =
      .ok { h with audio := audio, pred := some (.rows out.1), hidden := out.2 } := by
  rw [activationExtractorRealtime, loadAudio_of_audio haudio, extract, if_pos hlt, hout]
  rfl

theorem extract_done (hle : rounds setup.hop audio.length ≤ h.counter)
    (haudio : (loadAudio setup audioPath h).audio = audio) :
    activationExtractorRealtime setup audioPath h =
      .ok { h with audio := audio, completed := true } := by
  rw [activationExtractorRealtime, loadAudio_of_audio haudio, extract, if_neg hle.not_gt]
  rfl

section Loop

variable {m : Type → Type} [Monad m] [MonadExceptOf PyError m]

/-- The inference steps on the given rows, with the value of `output` after them. -/
def handAll (process : Activations → m (List Row)) (preds : List Activations)
    (output : Option (List Row)) : m (Option (List Row)) :=
  preds.foldlM (fun _ pred ↦ some <$> process pred) output

/-- What one iteration does with the row it has: a thread leaves `output` as it is. -/
def hand (process : Activations → m (List Row)) (thread : Bool) (output : Option (List Row))
    (pred : Activations) : m (Option (List Row)) :=
  if thread then do inThread process pred; return output else some <$> process pred

theorem loop_completed {fuel : ℕ} {thread : Bool} {output : Option (List Row)}
    (process : Activations → m (List Row)) (hc : h.completed = true) :
    realtimeLoop setup process thread audioPath (fuel + 1) output h = returned h output := by
  rw [realtimeLoop, hc]
  rfl

theorem infer_some {thread : Bool} {output : Option (List Row)} {pred : Activations}
    (process : Activations → m (List Row)) (hp : h.pred = some pred) :
    infer process thread h output = hand process thread output pred := by
  rw [infer, hp]
  rfl

variable [LawfulMonad m]

theorem loop_step {fuel : ℕ} {thread : Bool} {output : Option (List Row)} {pred : Activations}
    (process : Activations → m (List Row)) (hc : h.completed = false)
    (hx : activationExtractorRealtime setup audioPath h = .ok h') (hp : h'.pred = some pred) :
    realtimeLoop setup process thread audioPath (fuel + 1) output h =
      hand process thread output pred >>= fun output' ↦
        realtimeLoop setup process thread audioPath fuel output'
          { h' with counter := h'.counter + 1 } := by
  rw [realtimeLoop, hc, hx]
  simp [infer_some process hp, MonadExcept.ofExcept]

theorem loop_hands {n : ℕ} {ps : List Activations} {last : Activations}
    (process : Activations → m (List Row)) (thread : Bool) (hc : h.completed = false)
    (haudio : (loadAudio setup audioPath h).audio = audio)
    (hn : (h.counter + n : ℤ) = rounds setup.hop audio.length)
    (hps : setup.predictions audio n h.counter h.hidden = .ok ps)
    (hlast : ps.getLast?.or h.pred = some last) :
    ∃ h', ∀ output, realtimeLoop setup process thread audioPath (n + 2) output h =
      (ps ++ [last]).foldlM (hand process thread) output >>= returned h' := by
  induction n generalizing h ps with
  | zero =>
    -- the extractor only raises the flag, the inference after it still runs on the old `pred`
    cases hps
    have hx := extract_done (by omega) haudio
    refine ⟨{ h with audio := audio, completed := true, counter := h.counter + 1 },
      fun output ↦ ?_⟩
    rw [loop_step process hc hx hlast]
    simp [loop_completed]
  | succ n ih =>
    obtain ⟨out, hout, hps⟩ := except_bind_ok.mp hps
    obtain ⟨rest, hrest, hps⟩ := except_bind_ok.mp hps
    cases hps
    push_cast at hn
    have hx := extract_next (by omega) haudio hout
    obtain ⟨h', hloop⟩ := ih (h := { h with
      audio := audio, pred := some (.rows out.1), hidden := out.2, counter := h.counter + 1 })
      hc (by rw [loadAudio_eq (Nat.succ_ne_zero _)]) (by push_cast; omega) hrest (by
        rw [List.getLast?_cons] at hlast
        cases hr : rest.getLast? <;> simp_all)
    refine ⟨h', fun output ↦ ?_⟩
    rw [loop_step process hc hx rfl]
    simp only [hloop]
    simp

theorem process_hands {ps : List Activations} {last : Activations}
    (process : Activations → m (List Row))
    (hps : setup.predictions (setup.readAudio audioPath)
      (rounds setup.hop (setup.readAudio audioPath).length).toNat 0 h.hidden = .ok ps)
    (hlast : ps.getLast?.or h.pred = some last) :
    ∃ h', Handler.process setup .realtime false (.PF process) (some audioPath) h =
      handAll process (ps ++ [last]) none >>= returned h' := by
  have hrounds := rounds_nonneg setup.hop (setup.readAudio audioPath).length
  obtain ⟨h', hloop⟩ := loop_hands (h := { h with counter := 0, completed := false })
    process false rfl loadAudio_start (by push_cast; omega) hps hlast
  exact ⟨h', hloop none⟩

end Loop

theorem handAll_record (preds log : List Activations) (output : Option (List Row))
    (h' : Handler α H) :
    ((handAll record preds output >>= returned h').run.run log).2 = log ++ preds := by
  induction preds generalizing log output with
  | nil =>
    rw [List.append_nil]
    cases output <;> rfl
  | cons pred preds ih =>
    have hrest := ih (log ++ [pred]) (some [])
    rw [List.append_assoc, List.singleton_append] at hrest
    exact hrest

theorem loop_unset {fuel : ℕ} {output : Option (List Row)} (log : List Activations)
    (hc : h.completed = false)
    (hx : activationExtractorRealtime setup audioPath h = .ok h') (hp : h'.pred = none) :
    (realtimeLoop setup record false audioPath (fuel + 1) output h).run.run log =
      (.error .attributeError, log) := by
  obtain ⟨hidden, pred', audio, counter, completed⟩ := h'
  cases hp
  rw [realtimeLoop, hc, hx]
  rfl

end Handler

theorem delivered_eq {ps : List Activations}
    (hps : setup.predictions (setup.readAudio audioPath)
      (rounds setup.hop (setup.readAudio audioPath).length).toNat 0 h.hidden = .ok ps) :
    delivered setup audioPath h = ps ++ (ps.getLast?.or h.pred).toList := by
  cases hlast : ps.getLast?.or h.pred with
  | some last =>
    obtain ⟨h', hprocess⟩ := Handler.process_hands record hps hlast
    rw [delivered, hprocess, Handler.handAll_record]
    rfl
  | none =>
    obtain ⟨hnil, hpred⟩ := Option.or_eq_none_iff.mp hlast
    have hlen := Setup.length_predictions hps
    rw [List.getLast?_eq_none_iff.mp hnil] at hlen ⊢
    have hrounds := rounds_nonneg setup.hop (setup.readAudio audioPath).length
    have hzero : (rounds setup.hop (setup.readAudio audioPath).length).toNat = 0 := hlen.symm
    have hstart : (Handler.loadAudio setup audioPath
        { h with counter := 0, completed := false }).audio = setup.readAudio audioPath :=
      Handler.loadAudio_start
    have hx := Handler.extract_done (by push_cast; omega) hstart
    rw [delivered, Handler.process]
    simp only [hzero]
    rw [Handler.loop_unset [] rfl hx hpred]
    rfl

/-- In realtime mode the rows handed to the inference model are the predictions
of the counters below `round(n / hop)`, each once and in order, only if there
are none and no earlier call has left one. -/
theorem realtime_delivery (hframes : ∀ x, setup.processAudio x ≠ [])
    (audioPath : AudioPath α) (h : Handler α H) :
    ∃ ps, setup.predictions (setup.readAudio audioPath)
        (rounds setup.hop (setup.readAudio audioPath).length).toNat 0 h.hidden = .ok ps ∧
      (delivered setup audioPath h = ps ↔
        rounds setup.hop (setup.readAudio audioPath).length = 0 ∧ h.pred = none) := by
  obtain ⟨ps, hps⟩ := Setup.exists_predictions hframes (setup.readAudio audioPath)
    (rounds setup.hop (setup.readAudio audioPath).length).toNat 0 h.hidden
  have hlen := Setup.length_predictions hps
  have hrounds := rounds_nonneg setup.hop (setup.readAudio audioPath).length
  have hnil : rounds setup.hop (setup.readAudio audioPath).length = 0 ↔ ps = [] := by
    rw [← List.length_eq_zero_iff]
    omega
  refine ⟨ps, hps, ?_⟩
  rw [delivered_eq hps, hnil, List.append_right_eq_self, Option.toList_eq_nil_iff,
    Option.or_eq_none_iff, List.getLast?_eq_none_iff]

def counting : Setup ℕ Unit ℕ where
  hop := 1
  win := 2
  hop_pos := Nat.one_pos
  load _ := []
  mean samples := samples.headD 0
  processAudio _ := [(), (), (), ()]
  cell _ k := (⟨k, 0, Nat.cast_nonneg k, silence.downbeat_nonneg⟩, k + 1)

theorem realtime_delivery_counting :
    ∃ ps, counting.predictions [5, 6, 7] (rounds 1 3).toNat 0 0 = .ok ps ∧
      delivered counting (.signal [5, 6, 7]) ⟨0, none, [], 0, false⟩ ≠ ps := by
  have hframes : ∀ x, counting.processAudio x ≠ [] := fun _ ↦ List.cons_ne_nil _ _
  have hrounds : rounds 1 3 ≠ 0 := by decide +kernel
  obtain ⟨ps, hps, hiff⟩ :=
    realtime_delivery hframes (.signal [5, 6, 7]) ⟨0, none, [], 0, false⟩
  exact ⟨ps, hps, fun heq ↦ hrounds (hiff.mp heq).1⟩

/-- One sample, one counter: its prediction is handed over twice. -/
theorem realtime_delivers_twice :
    ¬ ∀ (audioPath : AudioPath ℕ) (h : Handler ℕ ℕ) (ps : List Activations),
      counting.predictions (counting.readAudio audioPath)
        (rounds counting.hop (counting.readAudio audioPath).length).toNat 0 h.hidden = .ok ps →
      delivered counting audioPath h = ps := by
  intro h
  have hrounds : rounds 1 1 = 1 := by decide +kernel
  have hps : counting.predictions [5] (rounds 1 1).toNat 0 0 = .ok [.rows [silence]] := by
    rw [hrounds]
    rfl
  have hlen := congrArg List.length (h (.signal [5]) ⟨0, none, [], 0, false⟩ _ hps)
  revert hlen
  decide +kernel

end BeatNet
