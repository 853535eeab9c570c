import BeatNet.Threads

namespace BeatNet

open Numpy Library.Effects

variable {α F H : Type}

/-- The handler in streaming mode, which keeps the last samples of the microphone. -/
structure Streamer (α H : Type) extends Handler α H where
  streamWindow : List α
  deriving DecidableEq

namespace Setup

def span (setup : Setup α F H) : ℕ := setup.win + 2 * setup.hop

def padding [Zero α] (setup : Setup α F H) : List α := List.replicate setup.span 0

end Setup

namespace Streamer

variable (setup : Setup α F H)

def opened [Zero α] (hidden : H) : Streamer α H where
  hidden := hidden
  pred := none
  audio := []
  counter := 0
  completed := false
  streamWindow := setup.padding

/-- Reads one hop. What `read` gives is an argument. -/
def activationExtractorStream (hop : List α) (h : Streamer α H) :
    Except PyError (Streamer α H) :=
  let streamWindow := h.streamWindow.drop setup.hop ++ hop
  if h.counter < 5 then
    .ok { h with streamWindow := streamWindow, pred := some (.rows [silence]) }
  else match (setup.processAudio streamWindow).getLast? with
    | none => .error .indexError
    | some feat => do
      let out ← setup.forward [feat] h.hidden
      return { h with streamWindow := streamWindow, pred := some (.rows out.1), hidden := out.2 }

def next (h : Streamer α H) : Streamer α H := { h with counter := h.counter + 1 }

def start (h : Streamer α H) : Streamer α H := { h with counter := 0 }

def quiet (h : Streamer α H) : ℕ := 5 - h.counter

section Process

variable {m : Type → Type} [Monad m] [MonadExceptOf PyError m]

/-- The loop of the streaming mode, on what the reads give until the stream is not active. -/
def streamLoop (process : Activations → m (List Row)) (thread : Bool) :
    List (List α) → Option (List Row) → Streamer α H → m (Streamer α H)
  | [], _, h => return h
  | hop :: hops, output, h => do
    let h' ← MonadExcept.ofExcept (activationExtractorStream setup hop h)
    let output' ← Handler.infer process thread h'.toHandler output
    streamLoop process thread hops output' h'.next

/-- `BeatNet.process` in streaming mode. It returns nothing. -/
def process (thread : Bool) (estimator : Estimator m) (hops : List (List α))
    (h : Streamer α H) : m (Streamer α H) :=
  match estimator with
  | .DBN _ => throwThe PyError .runtimeError
  | .PF process => streamLoop setup process thread hops none h.start

end Process

/-- What has been heard since the stream was opened, over any number of calls of `process`, each
of them left after any number of reads. -/
inductive Reached [Zero α] : List α → Streamer α H → Prop
  | opened (hidden : H) : Reached [] (opened setup hidden)
  | start {heard : List α} {h : Streamer α H} : Reached heard h → Reached heard h.start
  | read {heard hop : List α} {h h' : Streamer α H} : Reached heard h → hop.length = setup.hop →
      activationExtractorStream setup hop h = .ok h' → Reached (heard ++ hop) h'.next

def delivered (hops : List (List α)) (h : Streamer α H) : List Activations :=
  ((process setup false (.PF record) hops h).run.run []).2

end Streamer

section Windows

variable [Zero α] {setup : Setup α F H} {heard x rest : List α} {m : ℕ}

theorem Setup.length_padding : setup.padding.length = setup.span := List.length_replicate

theorem slide_padding (hx : x.length = setup.hop) :
    ((setup.padding ++ heard).drop heard.length).drop setup.hop ++ x =
      (setup.padding ++ (heard ++ x)).drop (heard ++ x).length := by
  have hle : (heard ++ x).length ≤ (setup.padding ++ heard).length := by
    rw [List.length_append, List.length_append, Setup.length_padding, Setup.span, hx]
    omega
  rw [← List.append_assoc, List.drop_append_of_le_length hle, List.drop_drop, List.length_append,
    hx]

theorem realtimeSlice_padding (hm : heard.length = setup.hop * m) :
    realtimeSlice setup.hop setup.win (m + 2) (setup.padding ++ heard ++ rest) =
      (setup.padding ++ heard).drop heard.length := by
  have hend : setup.hop * (m + 2) + setup.win = (setup.padding ++ heard).length := by
    rw [List.length_append, Setup.length_padding, Setup.span, hm]
    ring
  rw [realtimeSlice, slice, hend, List.take_left, Nat.add_sub_cancel, hm]

end Windows

namespace Streamer

variable [Zero α] {setup : Setup α F H} {heard hop : List α} {hops : List (List α)}
  {h h' : Streamer α H} {m : ℕ}

omit [Zero α] in
theorem extract_window (hx : activationExtractorStream setup hop h = .ok h') :
    h'.streamWindow = h.streamWindow.drop setup.hop ++ hop := by
  rw [activationExtractorStream] at hx
  split at hx
  · cases hx
    rfl
  · split at hx
    · cases hx
    · cases hx
      rfl

theorem Reached.window (h : Reached setup heard h') :
    h'.streamWindow = (setup.padding ++ heard).drop heard.length := by
  induction h with
  | opened hidden => exact (List.append_nil _).symm
  | start _ ih => exact ih
  | read _ hlen hx ih =>
    rw [next, extract_window hx, ih]
    exact slide_padding hlen

theorem Reached.dvd (h : Reached setup heard h') : setup.hop ∣ heard.length := by
  induction h with
  | opened hidden => exact dvd_zero _
  | start _ ih => exact ih
  | read _ hlen _ ih =>
    rw [List.length_append, hlen]
    exact (Nat.dvd_add_self_right).mpr ih

omit [Zero α] in
theorem extract_silent (setup : Setup α F H) (hop : List α) (hq : h.quiet = m + 1) :
    ∃ h', activationExtractorStream setup hop h = .ok h' ∧ h'.pred = some (.rows [silence]) ∧
      h'.next.hidden = h.hidden ∧ h'.next.quiet = m := by
  have hc : h.counter < 5 := by
    rw [quiet] at hq
    omega
  refine ⟨_, if_pos hc, rfl, rfl, ?_⟩
  simp only [next, quiet] at hq ⊢
  omega

theorem extract_predicts {rest : List α} {out : List Activation × H} (hr : Reached setup heard h)
    (hm : heard.length = setup.hop * m) (hlen : hop.length = setup.hop) (hq : h.quiet = 0)
    (hout : setup.prediction (setup.padding ++ (heard ++ hop) ++ rest) (m + 3) h.hidden = .ok out) :
    ∃ h', activationExtractorStream setup hop h = .ok h' ∧ h'.pred = some (.rows out.1) ∧
      h'.next.hidden = out.2 ∧ h'.next.quiet = 0 := by
  have hc : ¬ h.counter < 5 := by
    rw [quiet] at hq
    omega
  have hm' : (heard ++ hop).length = setup.hop * (m + 1) := by
    rw [List.length_append, hm, hlen, mul_add_one]
  rw [Setup.prediction, if_neg (by omega), realtimeSlice_padding hm', ← slide_padding hlen,
    ← hr.window] at hout
  rw [activationExtractorStream, if_neg hc]
  cases hlast : (setup.processAudio (h.streamWindow.drop setup.hop ++ hop)).getLast? with
  | none =>
    rw [hlast] at hout
    cases hout
  | some feat =>
    rw [hlast] at hout
    cases hout
    refine ⟨_, rfl, rfl, rfl, ?_⟩
    simp only [next, quiet]
    omega

omit [Zero α] in
theorem loop_step {M : Type → Type} [Monad M] [MonadExceptOf PyError M] [LawfulMonad M]
    {output : Option (List Row)} {pred : Activations} {thread : Bool}
    (process : Activations → M (List Row))
    (hx : activationExtractorStream setup hop h = .ok h') (hp : h'.pred = some pred) :
    streamLoop setup process thread (hop :: hops) output h =
      Handler.hand process thread output pred >>= fun output' ↦
        streamLoop setup process thread hops output' h'.next := by
  rw [streamLoop, hx]
  simp [Handler.infer_some process hp, MonadExcept.ofExcept]

def Hands (setup : Setup α F H) (preds : List Activations) (hops : List (List α))
    (h h' : Streamer α H) : Prop :=
  ∀ (M : Type → Type) [Monad M] [MonadExceptOf PyError M] [LawfulMonad M]
    (process : Activations → M (List Row)) (thread : Bool) (output : Option (List Row)),
    streamLoop setup process thread hops output h =
      preds.foldlM (Handler.hand process thread) output >>= fun _ ↦ pure h'

omit [Zero α] in
theorem Hands.cons {pred : Activations} {preds : List Activations} {h₁ : Streamer α H}
    (hrest : Hands setup preds hops h₁.next h')
    (hx : activationExtractorStream setup hop h = .ok h₁) (hp : h₁.pred = some pred) :
    Hands setup (pred :: preds) (hop :: hops) h h' := by
  intro M _ _ _ process thread output
  rw [loop_step process hx hp, List.foldlM_cons, bind_assoc]
  exact bind_congr fun output' ↦ hrest M process thread output'

theorem loop_hands {ps : List Activations} (hr : Reached setup heard h)
    (hm : heard.length = setup.hop * m) (hlen : ∀ hop ∈ hops, hop.length = setup.hop)
    (hps : setup.predictions (setup.padding ++ (heard ++ hops.flatten)) (hops.length - h.quiet)
      (m + h.quiet + 3) h.hidden = .ok ps) :
    ∃ h', Reached setup (heard ++ hops.flatten) h' ∧
      Hands setup (List.replicate (min hops.length h.quiet) (.rows [silence]) ++ ps) hops h h' := by
  induction hops generalizing heard h m ps with
  | nil =>
    rw [List.length_nil, Nat.zero_sub] at hps
    cases hps
    refine ⟨h, ?_, fun M _ _ _ process thread output ↦ ?_⟩
    · rwa [List.flatten_nil, List.append_nil]
    · simp [streamLoop]
  | cons hop hops ih =>
    obtain ⟨hhop, hlen⟩ := List.forall_mem_cons.mp hlen
    have hm' : (heard ++ hop).length = setup.hop * (m + 1) := by
      rw [List.length_append, hm, hhop, mul_add_one]
    have hflat : heard ++ (hop :: hops).flatten = heard ++ hop ++ hops.flatten := by
      rw [List.flatten_cons, List.append_assoc]
    rw [hflat, List.length_cons] at hps
    rw [hflat, List.length_cons]
    cases hq : h.quiet with
    | succ k =>
      obtain ⟨h₁, hx, hpred, hhidden, hquiet⟩ := extract_silent setup hop hq
      rw [hq, Nat.add_sub_add_right, show m + (k + 1) + 3 = m + 1 + k + 3 by omega, ← hhidden,
        ← hquiet] at hps
      obtain ⟨h', hr', hrest⟩ := ih (hr.read hhop hx) hm' hlen hps
      refine ⟨h', hr', ?_⟩
      rw [Nat.add_min_add_right, ← hquiet]
      exact hrest.cons hx hpred
    | zero =>
      rw [hq, Nat.sub_zero, Nat.add_zero] at hps
      obtain ⟨out, hout, hps⟩ := except_bind_ok.mp hps
      obtain ⟨rest, hrest, hps⟩ := except_bind_ok.mp hps
      cases hps
      rw [← List.append_assoc] at hout
      obtain ⟨h₁, hx, hpred, hhidden, hquiet⟩ := extract_predicts hr hm hhop hq hout
      rw [show m + 3 + 1 = m + 1 + 0 + 3 by omega, ← Nat.sub_zero hops.length, ← hhidden,
        ← hquiet] at hrest
      obtain ⟨h', hr', hrest⟩ := ih (hr.read hhop hx) hm' hlen hrest
      rw [hquiet, Nat.min_zero] at hrest
      exact ⟨h', hr', hrest.cons hx hpred⟩

omit [Zero α] in
theorem handAll_record (preds log : List Activations) (output : Option (List Row)) :
    ((Handler.handAll record preds output >>= fun _ ↦ pure h).run.run log).2 = log ++ preds := by
  induction preds generalizing log output with
  | nil => exact (List.append_nil log).symm
  | cons pred preds ih =>
    have hrest := ih (log ++ [pred]) (some [])
    rw [List.append_assoc, List.singleton_append] at hrest
    exact hrest

/-- What a call of `process` hands to the inference model for its reads, given the predictions. -/
def handed (reads : ℕ) (ps : List Activations) : List Activations :=
  List.replicate (min reads 5) (.rows [silence]) ++ ps

variable {G : Type} {c : Config} {rng : Rng G} {s s' : Cascade} {g g' : G}

def Predicts (setup : Setup α F H) (heard : List α) (hops : List (List α)) (h : Streamer α H)
    (ps : List Activations) : Prop :=
  setup.predictions (setup.padding ++ (heard ++ hops.flatten)) (hops.length - 5)
    (heard.length / setup.hop + 8) h.hidden = .ok ps

theorem process_hands {ps : List Activations} (hr : Reached setup heard h)
    (hlen : ∀ hop ∈ hops, hop.length = setup.hop) (hps : Predicts setup heard hops h ps) :
    ∃ h', Reached setup (heard ++ hops.flatten) h' ∧
      Hands setup (handed hops.length ps) hops h.start h' :=
  loop_hands hr.start (Nat.mul_div_cancel' hr.dvd).symm hlen hps

theorem delivered_eq {ps : List Activations} (hr : Reached setup heard h)
    (hlen : ∀ hop ∈ hops, hop.length = setup.hop) (hps : Predicts setup heard hops h ps) :
    delivered setup hops h = handed hops.length ps := by
  obtain ⟨h', _, hhands⟩ := process_hands hr hlen hps
  have hprocess := hhands Recorder record false none
  rw [delivered, process, hprocess]
  exact handAll_record _ [] none

/-- Over any calls of `process` left after any reads: the next call hands over one row for each
read, silence for the first five of them, and then the predictions of the realtime mode on all that
has been heard since the stream was opened, behind zeros, each once and in order. -/
theorem stream_delivery (hframes : ∀ x, setup.processAudio x ≠ []) (hr : Reached setup heard h)
    (hlen : ∀ hop ∈ hops, hop.length = setup.hop) :
    ∃ ps, setup.predictions (setup.padding ++ (heard ++ hops.flatten)) (hops.length - 5)
        (heard.length / setup.hop + 8) h.hidden = .ok ps ∧
      delivered setup hops h = List.replicate (min hops.length 5) (.rows [silence]) ++ ps ∧
      (delivered setup hops h).length = hops.length := by
  obtain ⟨ps, hps⟩ := Setup.exists_predictions hframes
    (setup.padding ++ (heard ++ hops.flatten)) (hops.length - 5) (heard.length / setup.hop + 8)
    h.hidden
  have hdel := delivered_eq hr hlen hps
  refine ⟨ps, hps, hdel, ?_⟩
  rw [hdel, handed, List.length_append, List.length_replicate, Setup.length_predictions hps]
  omega

theorem stream_delivery_counting :
    ∃ ps, counting.predictions [0, 0, 0, 0, 1, 2, 3, 4, 5, 6, 7] 2 8 0 = .ok ps ∧
      delivered counting [[1], [2], [3], [4], [5], [6], [7]] (opened counting 0) =
        List.replicate 5 (.rows [silence]) ++ ps := by
  have hopened : Reached counting [] (opened counting 0) := .opened 0
  have hlen : ∀ hop ∈ [[1], [2], [3], [4], [5], [6], [7]], hop.length = counting.hop := by decide
  obtain ⟨ps, hps, hdel, _⟩ := stream_delivery (fun _ ↦ List.cons_ne_nil _ _) hopened hlen
  exact ⟨ps, hps, hdel⟩

theorem handed_rows {ps : List Activations} (hps : Predicts setup heard hops h ps) :
    ∀ p ∈ handed hops.length ps, ∃ a, p = .rows [a] := by
  intro p hp
  rcases List.mem_append.mp hp with hp | hp
  · exact ⟨silence, List.eq_of_mem_replicate hp⟩
  · exact Setup.predictions_rows hps p hp

omit [Zero α] in
theorem flatten_drop_rows {calls : List Activations} (hcalls : ∀ p ∈ calls, ∃ a, p = .rows [a]) :
    ((calls.map Activations.frames).map (List.drop c.skip)).flatten =
      if c.skip = 0 then calls.flatMap Activations.frames else [] := by
  split_ifs with hskip
  · have hdrop : List.drop 0 = (id : List Activation → List Activation) := rfl
    rw [hskip, hdrop, List.map_id, List.flatMap]
  · rw [List.flatten_eq_nil_iff]
    intro chunk hchunk
    obtain ⟨frames, hframes, rfl⟩ := List.mem_map.mp hchunk
    obtain ⟨p, hp, rfl⟩ := List.mem_map.mp hframes
    obtain ⟨a, rfl⟩ := hcalls p hp
    exact List.drop_eq_nil_of_le (Nat.one_le_iff_ne_zero.mpr hskip)

omit [Zero α] in
theorem run_handAll_rows (h0 : 0 ≤ c.offset) {calls : List Activations}
    (hcalls : ∀ p ∈ calls, ∃ a, p = .rows [a]) {output : Option (List Row)} :
    (∃ output', ((Handler.handAll (particleFilter c rng) calls output).run s).run g =
        .ok ((output', s'), g')) ↔
      (processFrames c rng (if c.skip = 0 then calls.flatMap Activations.frames else []) s).run g =
        .ok (s', g') := by
  rw [← flatten_drop_rows hcalls]
  cases calls with
  | nil =>
    apply Iff.intro
    · intro hrun
      obtain ⟨output', hrun⟩ := hrun
      cases hrun
      rfl
    · intro hrun
      obtain ⟨rfl, rfl⟩ := run_pure_ok.mp hrun
      exact ⟨output, rfl⟩
  | cons first calls =>
    have hisRows : ∀ p ∈ first :: calls, p.isRows = true := by
      intro p hp
      obtain ⟨a, rfl⟩ := hcalls p hp
      rfl
    rw [run_handAll, map_eq_pure_bind]
    apply Iff.intro
    · intro hrun
      obtain ⟨output', hrun⟩ := hrun
      obtain ⟨⟨t, rows⟩, k, hrun, hpure⟩ := run_bind_ok.mp hrun
      cases hpure
      obtain ⟨chunks, hchunks, hsteps, _⟩ := processCalls_ok.mp hrun
      obtain ⟨_, rfl⟩ := (forall_framesOf_ok h0).mp hchunks
      exact hsteps
    · intro hsteps
      refine ⟨some s'.beats, run_bind_ok.mpr ⟨(s', s'.beats), g', ?_, rfl⟩⟩
      exact processCalls_ok.mpr
        ⟨_, (forall_framesOf_ok h0).mpr ⟨.inr hisRows, rfl⟩, hsteps, rfl⟩

omit [Zero α] in
theorem Hands.run_ok {preds : List Activations} {thread : Bool}
    (hhands : Hands setup preds hops h.start h') :
    ((Streamer.process setup thread (.PF (particleFilter c rng)) hops h).run s).run g =
        .ok ((h', s'), g') ↔
      ∃ output, ((preds.foldlM (Handler.hand (particleFilter c rng) thread) none).run s).run g =
        .ok ((output, s'), g') := by
  rw [Streamer.process, hhands (Session G)]
  apply Iff.intro
  · intro hrun
    obtain ⟨output, t, k, hrun, hpure⟩ := session_bind_ok.mp hrun
    cases hpure
    exact ⟨output, hrun⟩
  · intro hrun
    obtain ⟨output, hrun⟩ := hrun
    exact session_bind_ok.mpr ⟨output, s', g', hrun, rfl⟩

omit [Zero α] in
theorem process_rows_ok (h0 : 0 ≤ c.offset) (hskip : c.skip = 0) {frames : List Activation} :
    (BeatNet.process c rng (.rows frames) s).run g = .ok ((s', s'.beats), g') ↔
      (processFrames c rng frames s).run g = .ok (s', g') := by
  have hframes : framesOf c (.rows frames) = .ok frames :=
    (framesOf_ok h0).mpr ⟨.inl hskip, by rw [hskip]; rfl⟩
  rw [process_ok, hframes]
  simp

/-- Streaming tracks like one call on all activations: after a call of `process` for some reads the
particle filter is where it is after processing at once all rows that were handed over, with and
without threads. With an offset of a frame or more it never gets to see a frame. -/
theorem stream_tracking (hframes : ∀ x, setup.processAudio x ≠ []) (h0 : 0 ≤ c.offset)
    (hr : Reached setup heard h) (hlen : ∀ hop ∈ hops, hop.length = setup.hop) :
    ∃ h', Reached setup (heard ++ hops.flatten) h' ∧ ∀ s g s' g',
      (((Streamer.process setup false (.PF (particleFilter c rng)) hops h).run s).run g =
        .ok ((h', s'), g') ↔
      if c.skip = 0 then (BeatNet.process c rng
        (.rows ((delivered setup hops h).flatMap Activations.frames)) s).run g =
          .ok ((s', s'.beats), g')
      else s = s' ∧ g = g') ∧
      (((Streamer.process setup false (.PF (particleFilter c rng)) hops h).run s).run g =
        .ok ((h', s'), g') →
      ((Streamer.process setup true (.PF (particleFilter c rng)) hops h).run s).run g =
        .ok ((h', s'), g')) := by
  obtain ⟨ps, hps⟩ := Setup.exists_predictions hframes
    (setup.padding ++ (heard ++ hops.flatten)) (hops.length - 5) (heard.length / setup.hop + 8)
    h.hidden
  obtain ⟨h', hr', hhands⟩ := process_hands hr hlen hps
  have hrows := handed_rows hps
  refine ⟨h', hr', fun s g s' g' ↦ ⟨?_, fun hrun ↦ ?_⟩⟩
  · rw [delivered_eq hr hlen hps, hhands.run_ok]
    apply (run_handAll_rows h0 hrows).trans
    split_ifs with hskip
    · exact (process_rows_ok h0 hskip).symm
    · exact run_pure_ok
  · obtain ⟨output, hall⟩ := hhands.run_ok.mp hrun
    exact hhands.run_ok.mpr ⟨none, run_foldlM_hand h0 hrows hall⟩

theorem stream_tracking_counting :
    ∃ h' : Streamer ℕ ℕ, ((Streamer.process counting true
        (.PF (particleFilter (small 0 (4 / 10)) Rng.least)) [[5]] (opened counting 0)).run
          ⟨-1, [], [0], [0]⟩).run () = .ok ((h', ⟨0, [], [1], [0]⟩), ()) := by
  have hopened : Reached counting [] (opened counting 0) := .opened 0
  have hlen : ∀ hop ∈ [[5]], hop.length = counting.hop := by decide
  have hone : (BeatNet.process (small 0 (4 / 10)) Rng.least
      (.rows ((delivered counting [[5]] (opened counting 0)).flatMap Activations.frames))
        ⟨-1, [], [0], [0]⟩).run () = .ok ((⟨0, [], [1], [0]⟩, []), ()) := by decide +kernel
  have hskip : (small 0 (4 / 10)).skip = 0 := by decide +kernel
  have h0 : 0 ≤ (small 0 (4 / 10)).offset := le_rfl
  obtain ⟨h', _, htrack⟩ := stream_tracking (fun _ ↦ List.cons_ne_nil _ _) h0 hopened hlen
  obtain ⟨hiff, hthread⟩ := htrack ⟨-1, [], [0], [0]⟩ () ⟨0, [], [1], [0]⟩ ()
  rw [if_pos hskip] at hiff
  exact ⟨h', hthread (hiff.mpr hone)⟩

end Streamer

end BeatNet
