import BeatNet.Streaming
import Mathlib.Algebra.Order.Floor.Semifield

namespace BeatNet

open Numpy Library.Effects Library.Windows

variable {α F H : Type}

/-- The features of a frame are computed from the frame and the one before it. -/
def featureAt (feature : Option (List (Option α)) → List (Option α) → F) (hop win : ℕ)
    (x : List α) (i : ℕ) : F :=
  feature (if i = 0 then none else some (frame hop win x (i - 1))) (frame hop win x i)

def Setup.Framewise (setup : Setup α F H) (feature : Option (List (Option α)) → List (Option α) → F)
    (count : List α → ℕ) : Prop :=
  ∀ x, setup.processAudio x = (List.range (count x)).map (featureAt feature setup.hop setup.win x)

/-- Two handlers that differ only in how many frames their pipelines make: as many as there are hops
in the signal, or four. -/
structure Modes (online live : Setup α F H)
    (feature : Option (List (Option α)) → List (Option α) → F) : Prop where
  hop : live.hop = online.hop
  win : live.win = online.win
  cell : live.cell = online.cell
  online : online.Framewise feature fun x ↦ ⌈(x.length / online.hop : ℚ)⌉₊
  live : live.Framewise feature fun _ ↦ 4

section Slices

variable {hop win counter : ℕ} {feature : Option (List (Option α)) → List (Option α) → F}

theorem frame_realtimeSlice_add {j : ℕ} (hc : 2 ≤ counter) (hlo : win / 2 ≤ j * hop)
    (hj : j ≤ 3) (hhi : hop ≤ win / 2) (x : List α) :
    frame hop win (realtimeSlice hop win counter x) j = frame hop win x (counter - 2 + j) := by
  obtain ⟨k, rfl⟩ := Nat.exists_eq_add_of_le hc
  rw [frame, realtimeSlice, slice, window_drop_take]
  · congr 1
    push_cast [Nat.add_sub_cancel_left]
    ring
  · omega
  · rw [Nat.add_sub_cancel_left]
    have hmul : hop * (2 + k) = hop * k + 2 * hop := by ring
    have hle : j * hop ≤ 3 * hop := Nat.mul_le_mul_right hop hj
    push_cast
    push_cast [← @Nat.cast_inj ℤ] at hmul
    omega

theorem featureAt_realtimeSlice (hc : 2 ≤ counter) (hlo : win / 2 ≤ 2 * hop) (hhi : hop ≤ win / 2)
    (x : List α) :
    featureAt feature hop win (realtimeSlice hop win counter x) 3 =
      featureAt feature hop win x (counter + 1) := by
  have hbefore : counter - 2 + (3 - 1) = counter + 1 - 1 := by omega
  have hlast : counter - 2 + 3 = counter + 1 := by omega
  rw [featureAt, featureAt, if_neg (by decide), if_neg (Nat.succ_ne_zero counter),
    frame_realtimeSlice_add hc (by omega) le_rfl hhi,
    frame_realtimeSlice_add hc hlo (by decide) hhi, hbefore, hlast]

end Slices

section Late

variable {online live : Setup α F H} {feature : Option (List (Option α)) → List (Option α) → F}
  {audio : List α} {hidden : H}

def liveFeatures (live : Setup α F H) (feature : Option (List (Option α)) → List (Option α) → F)
    (audio : List α) (counter n : ℕ) : List F :=
  (List.range' (counter + 1) n).map (featureAt feature live.hop live.win audio)

theorem Setup.Framewise.prediction (h : live.Framewise feature fun _ ↦ 4)
    (hlo : live.win / 2 ≤ 2 * live.hop) (hhi : live.hop ≤ live.win / 2) {counter : ℕ}
    (hc : 2 ≤ counter) :
    live.prediction audio counter hidden =
      .ok (live.unroll [featureAt feature live.hop live.win audio (counter + 1)] hidden) := by
  have hlast : (live.processAudio
      (realtimeSlice live.hop live.win counter audio)).getLast? =
        some (featureAt feature live.hop live.win
          (realtimeSlice live.hop live.win counter audio) 3) := by
    rw [h]
    rfl
  rw [Setup.prediction, if_neg (by omega), hlast, featureAt_realtimeSlice hc hlo hhi]
  rfl

theorem Setup.Framewise.predictions (h : live.Framewise feature fun _ ↦ 4)
    (hlo : live.win / 2 ≤ 2 * live.hop) (hhi : live.hop ≤ live.win / 2) (n : ℕ) {counter : ℕ}
    (hc : 2 ≤ counter) :
    live.predictions audio n counter hidden =
      .ok ((live.unroll (liveFeatures live feature audio counter n) hidden).1.map
        fun a ↦ .rows [a]) := by
  induction n generalizing counter hidden with
  | zero => rfl
  | succ n ih =>
    have hfeatures : liveFeatures live feature audio counter (n + 1) =
        featureAt feature live.hop live.win audio (counter + 1) ::
          liveFeatures live feature audio (counter + 1) n := by
      rw [liveFeatures, List.range'_succ, List.map_cons, liveFeatures]
    rw [Setup.predictions, h.prediction hlo hhi hc, hfeatures]
    refine except_bind_ok.mpr ⟨_, rfl, except_bind_ok.mpr ⟨_, ih (hc.trans (Nat.le_succ _)), rfl⟩⟩

theorem Setup.predictions_silence (n : ℕ) (hidden : H) :
    live.predictions audio n 0 hidden =
      (live.predictions audio (n - 2) 2 hidden).map
        (List.replicate (min n 2) (Activations.rows [silence]) ++ ·) := by
  match n with
  | 0 => rfl
  | 1 => rfl
  | n + 2 =>
    change ((live.predictions audio n 2 hidden >>= fun rest ↦
      Except.ok (Activations.rows [silence] :: rest)) >>= fun rest ↦
        Except.ok (Activations.rows [silence] :: rest)) = _
    rw [Nat.add_sub_cancel, min_eq_right (Nat.le_add_left 2 n)]
    cases live.predictions audio n 2 hidden <;> rfl

theorem rounds_le_ceil (hop n : ℕ) : (rounds hop n).toNat ≤ ⌈(n / hop : ℚ)⌉₊ := by
  have hround : (rounds hop n : ℚ) ≤ n / hop + 1 / 2 := pyRound_le _
  have hceil := Nat.le_ceil (n / hop : ℚ)
  have hlt : (rounds hop n : ℚ) < (⌈(n / hop : ℚ)⌉₊ + 1 : ℕ) := by
    push_cast
    linarith
  have hint : rounds hop n < (⌈(n / hop : ℚ)⌉₊ + 1 : ℕ) := by exact_mod_cast hlt
  omega

theorem Modes.unroll (h : Modes online live feature) (feats : List F) (hidden : H) :
    live.unroll feats hidden = online.unroll feats hidden := by
  induction feats generalizing hidden with
  | nil => rfl
  | cons feat feats ih =>
    rw [Setup.unroll, Setup.unroll, h.cell]
    simp only [ih]

theorem Modes.liveFeatures_getElem? (h : Modes online live feature) {k n : ℕ} (hk : k < n)
    (hN : k + 3 < (online.processAudio audio).length) :
    (liveFeatures live feature audio 2 n)[k]? = (online.processAudio audio)[k + 3]? := by
  rw [h.online, List.length_map, List.length_range] at hN
  rw [h.online, liveFeatures, h.hop, h.win, List.getElem?_map, List.getElem?_map,
    List.getElem?_range' hk, List.getElem?_range hN, one_mul, Nat.add_comm (2 + 1)]

theorem Modes.predictions (h : Modes online live feature)
    (hlo : online.win / 2 ≤ 2 * online.hop) (hhi : online.hop ≤ online.win / 2) (n : ℕ) :
    live.predictions audio n 0 hidden =
      .ok (List.replicate (min n 2) (.rows [silence]) ++
        (online.unroll (liveFeatures live feature audio 2 (n - 2)) hidden).1.map
          fun a ↦ .rows [a]) := by
  rw [← h.hop, ← h.win] at hlo
  rw [← h.hop, ← h.win] at hhi
  rw [Setup.predictions_silence, h.live.predictions hlo hhi _ le_rfl, h.unroll]
  rfl

theorem length_liveFeatures (counter n : ℕ) :
    (liveFeatures live feature audio counter n).length = n := by
  rw [liveFeatures, List.length_map, List.length_range']

/-- Realtime mode is online mode started late: after two rows of silence the rows are what the
network makes of the features of the frames 3, 4, ... of the recording, up to the frame of the last
round, each once and in order. Only the last of them can be missing in online mode. -/
theorem realtime_late_online (hmodes : Modes online live feature)
    (hlo : online.win / 2 ≤ 2 * online.hop) (hhi : online.hop ≤ online.win / 2)
    (audio : List α) (hidden : H) :
    ∃ feats : List F, feats.length = (rounds online.hop audio.length).toNat - 2 ∧
      (rounds online.hop audio.length).toNat ≤ (online.processAudio audio).length ∧
      (∀ k < feats.length, k + 3 < (online.processAudio audio).length →
        feats[k]? = (online.processAudio audio)[k + 3]?) ∧
      live.predictions audio (rounds online.hop audio.length).toNat 0 hidden =
        .ok (List.replicate (min (rounds online.hop audio.length).toNat 2) (.rows [silence]) ++
          (online.unroll feats hidden).1.map fun a ↦ .rows [a]) := by
  refine ⟨liveFeatures live feature audio 2 _, length_liveFeatures _ _, ?_, ?_,
    hmodes.predictions hlo hhi _⟩
  · rw [hmodes.online, List.length_map, List.length_range]
    exact rounds_le_ceil _ _
  · intro k hk hN
    rw [length_liveFeatures] at hk
    exact hmodes.liveFeatures_getElem? hk hN

def centre (_ : Option (List (Option ℕ))) (samples : List (Option ℕ)) : ℕ :=
  (samples.getD 2 none).getD 0

def middles (count : List ℕ → ℕ) : Setup ℕ ℕ ℕ where
  hop := 2
  win := 5
  hop_pos := Nat.two_pos
  load _ := []
  mean samples := samples.headD 0
  processAudio x := (List.range (count x)).map (featureAt centre 2 5 x)
  cell feat k := ((counting.cell () feat).1, k + 1)

theorem modes_middles :
    Modes (middles fun x ↦ ⌈(x.length / (2 : ℕ) : ℚ)⌉₊) (middles fun _ ↦ 4) centre :=
  ⟨rfl, rfl, rfl, fun _ ↦ rfl, fun _ ↦ rfl⟩

theorem realtime_late_online_middles :
    ∃ feats : List ℕ, feats.length = 4 ∧
      (middles fun _ ↦ 4).predictions [1, 2, 3, 4, 5, 6, 7, 8, 9, 10, 11, 12] 6 0 0 =
        .ok (List.replicate 2 (.rows [silence]) ++
          ((middles fun x ↦ ⌈(x.length / (2 : ℕ) : ℚ)⌉₊).unroll feats 0).1.map
            fun a ↦ .rows [a]) := by
  have hrounds : (rounds 2 12).toNat = 6 := by decide +kernel
  obtain ⟨feats, hlen, _, _, hps⟩ := realtime_late_online modes_middles (by decide) (by decide)
    [1, 2, 3, 4, 5, 6, 7, 8, 9, 10, 11, 12] 0
  change feats.length = (rounds 2 12).toNat - 2 at hlen
  change (middles fun _ ↦ 4).predictions _ (rounds 2 12).toNat 0 0 =
    .ok (List.replicate (min (rounds 2 12).toNat 2) _ ++ _) at hps
  rw [hrounds] at hlen hps
  exact ⟨feats, hlen, hps⟩

end Late

section Stream

variable [Zero α] {setup : Setup α F H} {heard : List α} {h : Streamer α H}

theorem Streamer.frame_reached (hr : Reached setup heard h)
    (hhi : setup.win / 2 ≤ 3 * setup.hop)
    (hfull : setup.win + setup.win / 2 ≤ heard.length + setup.hop) :
    frame setup.hop setup.win h.streamWindow 3 =
      window heard (heard.length + setup.hop - setup.win - (setup.win / 2 : ℕ)) setup.win := by
  have hspan : (setup.padding.length : ℤ) = setup.win + 2 * setup.hop := by
    rw [Setup.length_padding, Setup.span]
    push_cast
    rfl
  rw [frame, hr.window, window_eq_iff]
  intro j hj
  rw [sample_drop _ _ (by omega), sample_append_right _ _ (by omega)]
  congr 1
  omega

/-- Once the zeros have left the stream window, its last frame holds the samples of a frame of the
stream exactly when the window is a whole number of hops long. -/
theorem stream_frame_iff (hr : Streamer.Reached setup heard h) (hdistinct : heard.Nodup)
    (hlo : setup.hop ≤ setup.win / 2) (hhi : setup.win / 2 ≤ 3 * setup.hop)
    (hfull : setup.win + setup.win / 2 ≤ heard.length + setup.hop) :
    frame setup.hop setup.win h.streamWindow 3 =
        window heard (heard.length + setup.hop - setup.win - (setup.win / 2 : ℕ)) setup.win ∧
      ((∃ i, frame setup.hop setup.win h.streamWindow 3 = frame setup.hop setup.win heard i) ↔
        setup.hop ∣ setup.win) := by
  have hframe := Streamer.frame_reached hr hhi hfull
  have hpos := setup.hop_pos
  refine ⟨hframe, ?_⟩
  rw [hframe]
  apply Iff.intro
  · intro hex
    obtain ⟨i, hi⟩ := hex
    have hcentre := window_eq_iff.mp hi (setup.win / 2) (by omega)
    have hsum : (i : ℤ) * setup.hop + setup.win = heard.length + setup.hop := by
      have heq := sample_inj hdistinct
        (k := heard.length + setup.hop - setup.win - (setup.win / 2 : ℕ) + (setup.win / 2 : ℕ))
        (by omega) (by omega) hcentre.symm
      omega
    have hsum : i * setup.hop + setup.win = heard.length + setup.hop := by exact_mod_cast hsum
    have hdvd : setup.hop ∣ heard.length + setup.hop := Nat.dvd_add_self_right.mpr hr.dvd
    exact (Nat.dvd_add_right (Nat.dvd_mul_left setup.hop i)).mp (hsum ▸ hdvd)
  · intro hdvd
    have hdvd' : setup.hop ∣ heard.length + setup.hop - setup.win :=
      Nat.dvd_sub (Nat.dvd_add_self_right.mpr hr.dvd) hdvd
    obtain ⟨i, hi⟩ := hdvd'
    refine ⟨i, ?_⟩
    rw [frame]
    congr 1
    have hsum : heard.length + setup.hop = i * setup.hop + setup.win := by
      rw [Nat.mul_comm, ← hi]
      omega
    zify at hsum
    omega

/-- Three reads of two samples, with a window of five: no frame of the stream. -/
theorem stream_frame_middles :
    ∃ h, Streamer.Reached (middles fun _ ↦ 4) [1, 2, 3, 4, 5, 6] h ∧
      ∀ i, frame 2 5 h.streamWindow 3 ≠ frame 2 5 [1, 2, 3, 4, 5, 6] i := by
  have hread : ∀ x y : ℕ, [x, y].length = (middles fun _ ↦ 4).hop := fun _ _ ↦ rfl
  have hopened : Streamer.Reached (middles fun _ ↦ 4) [] _ := .opened 0
  have hr := ((hopened.read (hread 1 2) rfl).read (hread 3 4) rfl).read (hread 5 6) rfl
  obtain ⟨_, hiff⟩ := stream_frame_iff hr (by decide) (by decide) (by decide) (by decide)
  have hndvd : ¬ 2 ∣ 5 := by decide
  exact ⟨_, hr, fun i heq ↦ hndvd (hiff.mp ⟨i, heq⟩)⟩

end Stream

end BeatNet
