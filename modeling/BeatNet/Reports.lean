import BeatNet.Chunks
import BeatNet.Framewise
import BeatNet.Tracks

namespace BeatNet

open Numpy Library.Effects Library.Logs

/-- What there must be in a frame for its row: a downbeat, or something loud enough for the gate. -/
def Warranted (c : Config) (a : Activation) (r : Row) : Prop :=
  r.label = 1 ∧ 4 / 10 < a.downbeat ∨
    r.label = 2 ∧ c.igThreshold ≤ max a.beat a.downbeat ∧ 4 / 10 < max a.beat a.downbeat

section Rows

variable {G : Type} {c : Config} {rng : Rng G} {P : Cascade → Activation → Prop}
  {s s' : Cascade} {g g' : G} {a : Activation} {frames frames' : List Activation} {r : Row}

theorem gated_loud_iff : 4 / 10 < c.gated a ↔
    c.igThreshold ≤ max a.beat a.downbeat ∧ 4 / 10 < max a.beat a.downbeat := by
  rw [Config.gated]
  split_ifs with hgate
  · apply iff_of_false
    · norm_num
    · exact fun h ↦ absurd hgate (not_lt.mpr h.1)
  · exact ⟨fun h ↦ ⟨not_lt.mp hgate, h⟩, fun h ↦ h.2⟩

theorem reported_warranted {dm : ℕ} (h : r ∈ reported c a dm s) : Warranted c a r := by
  rw [reported] at h
  split_ifs at h with hdown hbeat
  · cases h
    exact .inl ⟨rfl, hdown.2.2⟩
  · cases h
    exact .inr ⟨rfl, gated_loud_iff.mp hbeat⟩
  · cases h

theorem reported_of_loud (dm : ℕ) (hloud : 4 / 10 < c.gated a) : ∃ r, r ∈ reported c a dm s := by
  rw [reported]
  split_ifs
  · exact ⟨_, rfl⟩
  · exact ⟨_, rfl⟩

theorem FrameStep.explained (h : FrameStep c a s s') (hr : r ∈ s'.beats) :
    r ∈ s.beats ∨ r.time = c.time (s.counter + 1) ∧ Warranted c a r := by
  obtain ⟨_, dm, hbeats⟩ | ⟨_, hbeats⟩ := h.beats
  · rw [hbeats, List.mem_append, Option.mem_toList] at hr
    refine hr.imp_right fun hr ↦ ⟨reported_time hr, reported_warranted hr⟩
  · exact .inl (hbeats ▸ hr)

theorem FrameStep.reports (h : FrameStep c a s s') (hdue : Due c s) (hloud : 4 / 10 < c.gated a) :
    ∃ r ∈ s'.beats, r.time = c.time (s.counter + 1) := by
  obtain ⟨_, dm, hbeats⟩ | ⟨hnot, _⟩ := h.beats
  · obtain ⟨r, hr⟩ := reported_of_loud (s := s.tick) dm hloud
    refine ⟨r, ?_, reported_time hr⟩
    rw [hbeats, List.mem_append, Option.mem_toList]
    exact .inr hr
  · exact absurd hdue hnot

theorem Steps.explained (h : Steps c rng P s g frames s' g') :
    ∀ r ∈ s'.beats, r ∈ s.beats ∨ ∃ (k : ℕ) (a : Activation), frames[k]? = some a ∧
      r.time = c.time (s.counter + 1 + k) ∧ Warranted c a r := by
  induction h with
  | nil => exact fun r hr ↦ .inl hr
  | cons _ hrun _ ih =>
    have hf := frameStep_of_ok hrun
    intro r hr
    obtain hr | ⟨k, a, ha, htime, hwarranted⟩ := ih r hr
    · refine (hf.explained hr).imp_right fun hr ↦ ⟨0, _, rfl, ?_, hr.2⟩
      rw [hr.1, Nat.cast_zero, add_zero]
    · refine .inr ⟨k + 1, a, ha, ?_, hwarranted⟩
      rw [htime, hf.counter]
      congr 1
      push_cast
      ring

theorem Run.row_explained (h : Run c rng Any frames s g) (hr : r ∈ s.beats) :
    ∃ (k : ℕ) (a : Activation), frames[k]? = some a ∧ r.time = c.offset + k * c.T ∧
      Warranted c a r := by
  obtain ⟨g₀, s₀, g₁, hb, hs⟩ := h
  have hstart := meets_build.ok hb
  obtain hr | ⟨k, a, ha, htime, hwarranted⟩ := hs.explained r hr
  · rw [hstart.beats] at hr
    cases hr
  · refine ⟨k, a, ha, ?_, hwarranted⟩
    rw [htime, hstart.counter, Config.time]
    push_cast
    ring

theorem Run.rows_apart (hexact : c.Exact) (h : Run c rng Any frames s g) :
    s.beats.IsChain fun r r' ↦ r.time < r'.time ∧ c.gap < r'.time - r.time := by
  obtain ⟨l, hl⟩ := h.log hexact
  rw [← hl]
  exact l.linked.imp fun r r' hfollows ↦ ⟨hfollows.1, hfollows.2.1⟩

/-- Every row of a run belongs to a frame, which has warranted it. No frame with something loud
enough for the gate goes without a row, if the downbeat stage runs. -/
theorem rows_explained (h : Run c rng Any frames s g) :
    (∀ r ∈ s.beats, ∃ (k : ℕ) (a : Activation), frames[k]? = some a ∧
      r.time = c.offset + k * c.T ∧ Warranted c a r) ∧
    ∀ before a after t k, frames = before ++ a :: after → Run c rng Any before t k →
      Steps c rng Any t k (a :: after) s g → Due c t → 4 / 10 < c.gated a →
        ∃ r ∈ s.beats, r.time = c.offset + before.length * c.T := by
  refine ⟨fun r hr ↦ h.row_explained hr, fun before a after t k _ hbefore hsteps hdue hloud ↦ ?_⟩
  cases hsteps with
  | cons _ hrun hrest =>
    obtain ⟨r, hr, htime⟩ := (frameStep_of_ok hrun).reports hdue hloud
    refine ⟨r, hrest.append_only.subset hr, ?_⟩
    rw [htime, hbefore.counter, Config.time]
    push_cast
    ring

theorem rows_explained_small :
    ∃ s, Run (small 0 (4 / 10)) Rng.least Any [silence, silence, loudDownbeat] s () ∧
      s.beats.length = 1 ∧ ∀ r ∈ s.beats, ∃ (k : ℕ) (a : Activation),
        [silence, silence, loudDownbeat][k]? = some a ∧
          r.time = (small 0 (4 / 10)).offset + k * (small 0 (4 / 10)).T ∧
            Warranted (small 0 (4 / 10)) a r := by
  have hrun : Run (small 0 (4 / 10)) Rng.least Any [silence, silence, loudDownbeat]
      ⟨2, [⟨1 / 25, 1⟩], [0, 0], [0, 2]⟩ () := run_of_simulate (by decide +kernel)
  exact ⟨_, hrun, rfl, (rows_explained hrun).1⟩

end Rows

section Recordings

variable {α F H G : Type} {setup : Setup α F H} {c : Config} {rng : Rng G}
  {dbn : List Activation → Except PyError (List Row)} {o o' : Handler α H × Cascade}
  {A : AudioPath α} {rows : List Row} {g g' : G}

theorem Setup.length_unroll (feats : List F) (hidden : H) :
    (setup.unroll feats hidden).1.length = feats.length := by
  induction feats generalizing hidden with
  | nil => rfl
  | cons feat feats ih => exact congrArg Nat.succ (ih _)

theorem Config.Exact.skip_le (hexact : c.Exact) (h0 : 0 ≤ c.offset) :
    c.skip * c.T ≤ c.offset ∧ c.offset < (c.skip + 1) * c.T := by
  have hquot : 0 ≤ c.offset / c.T := div_nonneg h0 c.T_pos.le
  have hskip : (c.skip : ℚ) = ⌊c.offset / c.T⌋ := by
    have hcast : ((c.skip : ℤ) : ℚ) = (c.start : ℚ) :=
      congrArg _ (Int.toNat_of_nonneg (c.start_nonneg h0))
    rw [hexact.start, pyInt, if_pos hquot] at hcast
    exact_mod_cast hcast
  rw [hskip]
  exact ⟨(le_div_iff₀ c.T_pos).mp (Int.floor_le _),
    (div_lt_iff₀ c.T_pos).mp (Int.lt_floor_add_one _)⟩

theorem lt_of_lt_ceil {n hop j : ℕ} (hhop : 0 < hop) (h : j < ⌈(n / hop : ℚ)⌉₊) : j * hop < n := by
  have hpos : (0 : ℚ) < hop := Nat.cast_pos.mpr hhop
  have hlt := (lt_div_iff₀ hpos).mp (Nat.lt_ceil.mp h)
  exact_mod_cast hlt

/-- The rows that a new tracker returns for a recording: every one of them belongs to a frame of the
recording whose activations have warranted it. In exact arithmetic they are apart, and the time of
each is within its frame. -/
theorem recording_explained
    (hframes : ∀ x, (setup.processAudio x).length = ⌈(x.length / setup.hop : ℚ)⌉₊)
    (h0 : 0 ≤ c.offset) (hfresh : Run c rng Any [] o.2 g)
    (h : (track setup .online (InferenceModel.PF.estimator c rng dbn) A o).run g =
      .ok ((o', rows), g')) :
    (c.Exact → rows.IsChain fun r r' ↦ r.time < r'.time ∧ c.gap < r'.time - r.time) ∧
      ∀ r ∈ rows, ∃ (j : ℕ) (a : Activation),
        (setup.unroll (setup.processAudio (setup.readAudio A)) o.1.hidden).1[j]? = some a ∧
          Warranted c a r ∧ c.skip ≤ j ∧ r.time = c.offset + (j - c.skip : ℕ) * c.T ∧
            (c.Exact → j * c.T ≤ r.time ∧ r.time < (j + 1) * c.T) ∧
              j * setup.hop < (setup.readAudio A).length := by
  obtain ⟨_, acts, hacts, hprocess⟩ := track_PF_ok (by decide) h
  obtain rfl := Setup.answer_ok (Setup.answer_of_ok hacts)
  obtain ⟨frames, hframesOf, hrun, rfl⟩ := process_ok.mp hprocess
  obtain ⟨_, rfl⟩ := (framesOf_ok h0).mp hframesOf
  have hsteps := hfresh.extend (Steps.iff_processFrames.mpr hrun)
  rw [List.nil_append] at hsteps
  refine ⟨fun hexact ↦ hsteps.rows_apart hexact, fun r hr ↦ ?_⟩
  obtain ⟨k, a, ha, htime, hwarranted⟩ := hsteps.row_explained hr
  have hget : (setup.unroll (setup.processAudio (setup.readAudio A)) o.1.hidden).1[
      c.skip + k]? = some a := by
    rw [← List.getElem?_drop]
    exact ha
  have hlt := (List.getElem?_eq_some_iff.mp hget).1
  rw [Setup.length_unroll, hframes] at hlt
  refine ⟨c.skip + k, a, hget, hwarranted, Nat.le_add_right _ _, ?_, fun hexact ↦ ?_,
    lt_of_lt_ceil setup.hop_pos hlt⟩
  · rw [Nat.add_sub_cancel_left]
    exact htime
  · obtain ⟨hlow, hhigh⟩ := hexact.skip_le h0
    push_cast
    exact ⟨by linarith, by linarith⟩

theorem recording_explained_beat :
    ∃ o', (track listening .online
        (InferenceModel.PF.estimator (small 0 (4 / 10)) Rng.least fun _ ↦ .ok [])
        (.signal [silence, silence, clearBeat]) blank).run () = .ok ((o', [⟨1 / 25, 2⟩]), ()) ∧
      ∀ r ∈ [(⟨1 / 25, 2⟩ : Row)], ∃ (j : ℕ) (a : Activation),
        (listening.unroll [silence, silence, clearBeat] ()).1[j]? = some a ∧
          Warranted (small 0 (4 / 10)) a r := by
  have hframes : ∀ x, (listening.processAudio x).length =
      ⌈(x.length / listening.hop : ℚ)⌉₊ := by
    intro x
    simp [listening]
  have hfresh : Run (small 0 (4 / 10)) Rng.least Any [] blank.2 () :=
    run_of_simulate (by decide +kernel)
  have hA : (track listening .online
      (InferenceModel.PF.estimator (small 0 (4 / 10)) Rng.least fun _ ↦ .ok [])
      (.signal [silence, silence, clearBeat]) blank).run () =
        .ok (((⟨(), none, [], 0, false⟩, ⟨2, [⟨1 / 25, 2⟩], [0], [1]⟩), [⟨1 / 25, 2⟩]), ()) := by
    decide +kernel
  refine ⟨_, hA, fun r hr ↦ ?_⟩
  obtain ⟨j, a, hget, hwarranted, _⟩ := (recording_explained hframes le_rfl hfresh hA).2 r hr
  exact ⟨j, a, hget, hwarranted⟩

end Recordings

section Live

variable {α F H G : Type} {online live : Setup α F H}
  {feature : Option (List (Option α)) → List (Option α) → F} {c : Config} {rng : Rng G}
  {dbn : List Activation → Except PyError (List Row)} {o o' : Handler α H × Cascade}
  {A : AudioPath α} {rows : List Row} {g g' : G} {a : Activation} {r : Row}

theorem not_warranted_silence : ¬ Warranted c silence r := by
  unfold Warranted silence
  norm_num

theorem exists_after_silence {m j : ℕ} {acts : List Activation}
    (hj : (List.replicate m silence ++ acts)[j]? = some a) (h : Warranted c a r) :
    ∃ k, j = k + m ∧ acts[k]? = some a := by
  rcases Nat.lt_or_ge j m with hlt | hge
  · rw [List.getElem?_append_left (by rwa [List.length_replicate]),
      List.getElem?_replicate_of_lt hlt, Option.some.injEq] at hj
    exact absurd (hj ▸ h) not_warranted_silence
  · rw [List.getElem?_append_right (by rwa [List.length_replicate]), List.length_replicate] at hj
    exact ⟨j - m, (Nat.sub_add_cancel hge).symm, hj⟩

theorem delivered_rows {acts : List Activation} (hne : acts ≠ []) {h : Handler α H}
    (hps : live.predictions (live.readAudio A)
      (rounds live.hop (live.readAudio A).length).toNat 0 h.hidden =
        .ok (acts.map fun a ↦ .rows [a])) :
    delivered live A h = (acts ++ [acts.getLast hne]).map fun a ↦ .rows [a] := by
  rw [delivered_eq hps, List.getLast?_map, List.getLast?_eq_some_getLast hne, List.map_append]
  rfl

theorem realtime_run {acts : List Activation} (hframes : ∀ x, live.processAudio x ≠ [])
    (h0 : 0 ≤ c.offset) (hdel : delivered live A o.1 = acts.map fun a ↦ .rows [a])
    (hne : acts ≠ [])
    (h : (track live .realtime (InferenceModel.PF.estimator c rng dbn) A o).run g =
      .ok ((o', rows), g')) :
    (processFrames c rng (if c.skip = 0 then acts else []) o.2).run g = .ok (o'.2, g') ∧
      rows = o'.2.beats := by
  have hflat : (acts.map fun a ↦ Activations.rows [a]).flatMap Activations.frames = acts := by
    rw [List.flatMap_map]
    exact List.flatMap_singleton' acts
  have hcalls : ∀ p ∈ acts.map fun a ↦ Activations.rows [a], ∃ a, p = .rows [a] := by
    intro p hp
    obtain ⟨a, _, rfl⟩ := List.mem_map.mp hp
    exact ⟨a, rfl⟩
  rw [← hflat, ← Streamer.flatten_drop_rows hcalls]
  obtain ⟨a, acts, rfl⟩ := List.exists_cons_of_ne_nil hne
  obtain ⟨h', htrack⟩ := track_realtime_PF hframes hdel
  rw [htrack] at h
  obtain ⟨⟨t, rows'⟩, k, hrun, hpure⟩ := run_bind_ok.mp h
  cases hpure
  obtain ⟨chunks, hchunks, hsteps, hrows⟩ := processCalls_ok.mp hrun
  obtain ⟨_, rfl⟩ := (forall_framesOf_ok h0).mp hchunks
  exact ⟨hsteps, hrows⟩

theorem explained_of_repeated {acts : List Activation} (hne : acts ≠ []) {s : Cascade}
    (hrun : Run c rng Any (if c.skip = 0 then acts ++ [acts.getLast hne] else []) s g)
    (hr : r ∈ s.beats) :
    ∃ (j : ℕ) (a : Activation), acts[j]? = some a ∧ Warranted c a r ∧
      (r.time = c.offset + j * c.T ∨
        j + 1 = acts.length ∧ r.time = c.offset + (j + 1) * c.T) := by
  obtain ⟨k, a, ha, htime, hwarranted⟩ := hrun.row_explained hr
  split_ifs at ha
  · by_cases hk : k < acts.length
    · rw [List.getElem?_append_left hk] at ha
      exact ⟨k, a, ha, hwarranted, .inl htime⟩
    · have hlast := (List.getElem?_eq_some_iff.mp ha).1
      rw [List.length_append, List.length_singleton] at hlast
      obtain rfl : k = acts.length := by omega
      rw [List.getElem?_concat_length, Option.some.injEq] at ha
      have hpos := List.length_pos_iff.mpr hne
      have hcast : ((acts.length - 1 : ℕ) : ℚ) + 1 = acts.length := by
        exact_mod_cast Nat.sub_add_cancel hpos
      refine ⟨acts.length - 1, a, ?_, hwarranted, .inr ⟨by omega, ?_⟩⟩
      · rw [← List.getLast?_eq_getElem?, List.getLast?_eq_some_getLast hne, ha]
      · rw [hcast]
        exact htime
  · cases ha

/-- Realtime mode reports a beat one frame before the frame that has warranted it. What the last
round finds may be reported with the time of its own frame. -/
theorem realtime_explained (hmodes : Modes online live feature)
    (hlo : online.win / 2 ≤ 2 * online.hop) (hhi : online.hop ≤ online.win / 2)
    (h0 : 0 ≤ c.offset) (hrounds : rounds online.hop (live.readAudio A).length ≠ 0)
    (hfresh : Run c rng Any [] o.2 g)
    (h : (track live .realtime (InferenceModel.PF.estimator c rng dbn) A o).run g =
      .ok ((o', rows), g')) :
    (c.Exact → rows.IsChain fun r r' ↦ r.time < r'.time ∧ c.gap < r'.time - r.time) ∧
      ∃ feats : List F,
        feats.length = (rounds online.hop (live.readAudio A).length).toNat - 2 ∧
        (∀ k < feats.length, k + 3 < (online.processAudio (live.readAudio A)).length →
          feats[k]? = (online.processAudio (live.readAudio A))[k + 3]?) ∧
        ∀ r ∈ rows, ∃ (k : ℕ) (a : Activation),
          (online.unroll feats o.1.hidden).1[k]? = some a ∧ Warranted c a r ∧
            (r.time = c.offset + (k + 2) * c.T ∨
              k + 1 = feats.length ∧ r.time = c.offset + (k + 3) * c.T) := by
  set n := (rounds online.hop (live.readAudio A).length).toNat with hn
  set feats := liveFeatures live feature (live.readAudio A) 2 (n - 2)
  have hlength : feats.length = n - 2 := length_liveFeatures _ _
  have hps : live.predictions (live.readAudio A) n 0 o.1.hidden =
      .ok (List.replicate (min n 2) (.rows [silence]) ++
        (online.unroll feats o.1.hidden).1.map fun a ↦ .rows [a]) :=
    hmodes.predictions hlo hhi n
  set acts := List.replicate (min n 2) silence ++ (online.unroll feats o.1.hidden).1 with hacts
  have hlen : acts.length = n := by
    rw [hacts, List.length_append, List.length_replicate, Setup.length_unroll, hlength]
    omega
  have hne : acts ≠ [] := by
    have hnonneg := rounds_nonneg online.hop (live.readAudio A).length
    rw [← List.length_pos_iff]
    omega
  have hmap : List.replicate (min n 2) (Activations.rows [silence]) ++
      (online.unroll feats o.1.hidden).1.map (fun a ↦ .rows [a]) =
        acts.map fun a ↦ .rows [a] := by
    rw [hacts, List.map_append, List.map_replicate]
  rw [hmap, hn, ← hmodes.hop] at hps
  have hdel := delivered_rows hne hps
  have hframes : ∀ x, live.processAudio x ≠ [] := by
    intro x
    rw [hmodes.live]
    exact List.cons_ne_nil _ _
  obtain ⟨hrun, rfl⟩ := realtime_run hframes h0 hdel (by simp) h
  have hall := hfresh.extend (Steps.iff_processFrames.mpr hrun)
  rw [List.nil_append] at hall
  refine ⟨fun hexact ↦ hall.rows_apart hexact, feats, hlength, fun k hk hN ↦ ?_, fun r hr ↦ ?_⟩
  · rw [hlength] at hk
    exact hmodes.liveFeatures_getElem? hk hN
  · obtain ⟨j, a, hj, hwarranted, htime⟩ := explained_of_repeated hne hall hr
    obtain ⟨k, rfl, hk⟩ := exists_after_silence hj hwarranted
    have hlt := (List.getElem?_eq_some_iff.mp hk).1
    rw [Setup.length_unroll, hlength] at hlt
    have htwo : min n 2 = 2 := by omega
    rw [htwo] at htime
    push_cast at htime
    refine ⟨k, a, hk, hwarranted, htime.imp_right fun hlast ↦ ⟨by omega, ?_⟩⟩
    rw [hlast.2]
    ring

/-- Something is heard in frame 3, and reported with the time of frame 2. -/
theorem realtime_explained_early :
    ∃ o', (track (middles fun _ ↦ 4) .realtime
        (InferenceModel.PF.estimator (small 0 (4 / 10)) Rng.least fun _ ↦ .ok [])
        (.signal [0, 0, 0, 0, 0, 0, 1, 0]) (⟨0, none, [], 0, false⟩, blank.2)).run () =
          .ok ((o', [⟨1 / 25, 2⟩]), ()) ∧
      ∃ feats : List ℕ, ∀ r ∈ [(⟨1 / 25, 2⟩ : Row)], ∃ (k : ℕ) (a : Activation),
        ((middles fun x ↦ ⌈(x.length / (2 : ℕ) : ℚ)⌉₊).unroll feats 0).1[k]? = some a ∧
          Warranted (small 0 (4 / 10)) a r := by
  have hfresh : Run (small 0 (4 / 10)) Rng.least Any [] blank.2 () :=
    run_of_simulate (by decide +kernel)
  have hrun : (track (middles fun _ ↦ 4) .realtime
      (InferenceModel.PF.estimator (small 0 (4 / 10)) Rng.least fun _ ↦ .ok [])
      (.signal [0, 0, 0, 0, 0, 0, 1, 0]) (⟨0, none, [], 0, false⟩, blank.2)).run () =
        .ok (((⟨2, some (.rows [silence]), [0, 0, 0, 0, 0, 0, 1, 0], 5, true⟩,
          ⟨4, [⟨1 / 25, 2⟩], [2, 2], [0]⟩), [⟨1 / 25, 2⟩]), ()) := by
    decide +kernel
  obtain ⟨_, feats, _, _, hrows⟩ := realtime_explained modes_middles (by decide) (by decide) le_rfl
    (by decide +kernel) hfresh hrun
  refine ⟨_, hrun, feats, fun r hr ↦ ?_⟩
  obtain ⟨k, a, hget, hwarranted, _⟩ := hrows r hr
  exact ⟨k, a, hget, hwarranted⟩

end Live

end BeatNet
