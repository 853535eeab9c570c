import BeatNet.Pointers

namespace BeatNet

open Numpy Library.Blocks Library.Effects

section Marks

variable {exp : ℚ → ℚ} {hexp : ∀ x, 0 ≤ exp x} {st : BarStateSpace} {om : BDObservationModel st}
  {columns columns' : List ℕ} {marked : ℕ → ℕ} {b k n s : ℕ}

/-- Of every block of length `n` the first `marked n` states are pointed to column 2, and the
others to column 0. -/
structure Marked (st : BarStateSpace) (marked : ℕ → ℕ) (columns : List ℕ) : Prop where
  length : columns.length = st.numStates
  values : ∀ v ∈ columns, v = 0 ∨ v = 2
  first : ∀ b n k s, At st.intervals b n k s → (columns[s]? = some 2 ↔ k < marked n)

theorem Marked.of_getElem? (hlen : columns.length = st.numStates)
    (h : ∀ b n k s, At st.intervals b n k s → columns[s]? = some (if k < marked n then 2 else 0)) :
    Marked st marked columns := by
  refine ⟨hlen, fun v hv ↦ ?_, fun b n k s hat ↦ ?_⟩
  · obtain ⟨s, hs⟩ := List.getElem?_of_mem hv
    have hlt := (List.getElem?_eq_some_iff.mp hs).1
    obtain ⟨b, n, k, hat⟩ := exists_at (hlt.trans_eq hlen)
    rw [h b n k s hat, Option.some.injEq] at hs
    split_ifs at hs
    · exact .inr hs.symm
    · exact .inl hs.symm
  · rw [h b n k s hat]
    split_ifs with hk
    · exact iff_of_true rfl hk
    · exact iff_of_false (by simp) hk

theorem Marked.getElem? (h : Marked st marked columns) (hat : At st.intervals b n k s) :
    columns[s]? = some (if k < marked n then 2 else 0) := by
  have hlt : s < columns.length := by
    rw [h.length]
    exact hat.lt_sum
  have hget := List.getElem?_eq_getElem hlt
  have hfirst := h.first b n k s hat
  split_ifs with hk
  · exact hfirst.mpr hk
  · rw [hget]
    rcases h.values _ (List.getElem_mem hlt) with hzero | htwo
    · rw [hzero]
    · exact absurd (hfirst.mp (hget.trans (congrArg some htwo))) hk

theorem marked_borderPointers (st : BarStateSpace) {b : ℕ} (hb : 1 ≤ b) :
    ∃ columns, borderPointers st b = .ok columns ∧
      Marked st (fun n ↦ ⌈(n / b : ℚ)⌉₊) columns := by
  have hne : (b : ℤ) ≠ 0 := by omega
  have hbpos : (0 : ℚ) < b := by exact_mod_cast hb
  refine ⟨_, borderPointers_ok.mpr ⟨hne, rfl⟩, .of_getElem? ?_ fun i n k s hat ↦ ?_⟩
  · rw [List.length_map, length_statePositions]
  · have hn : (0 : ℚ) < n := Nat.cast_pos.mpr (by have hk := hat.entry; omega)
    have hborder : (k / n : ℚ) < 1 / b ↔ k < ⌈(n / b : ℚ)⌉₊ := by
      rw [Nat.lt_ceil, div_lt_div_iff₀ hn hbpos, one_mul, lt_div_iff₀ hbpos]
    rw [List.getElem?_map, BarStateSpace.statePositions,
      hat.getElem?_flatMap fun n j ↦ (j / n : ℚ), Option.map_some]
    simp only [Int.cast_natCast, hborder]

theorem getElem?_foldl_set (idx columns : List ℕ) (v i : ℕ) (hi : i < columns.length) :
    (idx.foldl (fun columns i ↦ columns.set i v) columns)[i]? =
      if i ∈ idx then some v else columns[i]? := by
  induction idx generalizing columns with
  | nil => rfl
  | cons j idx ih =>
    rw [List.foldl_cons, ih _ (by rwa [List.length_set])]
    by_cases hmem : i ∈ idx
    · rw [if_pos hmem, if_pos (List.mem_cons_of_mem _ hmem)]
    · rw [if_neg hmem, List.getElem?_set]
      by_cases hij : j = i
      · subst hij
        simp [hi]
      · simp [hij, hmem, Ne.symm hij]

theorem numberPointers_succ (st : BarStateSpace) (k : ℕ) :
    numberPointers st (k + 1 : ℕ) = (numberPointers st k >>= fun pointers ↦
      assignAll (st.firsts.map (· + k)) 2 pointers) := by
  simp only [numberPointers, Int.toNat_natCast, List.range_succ, List.foldlM_append,
    List.foldlM_cons, List.foldlM_nil, bind_pure]

/-- A round marks the next state of every block. What it marks beyond the end of a short block is
among the first states of a later one, which that block has marked before. -/
theorem Marked.round (h : Marked st (min k) columns)
    (hassign : assignAll (st.firsts.map (· + k)) 2 columns = .ok columns') :
    Marked st (min (k + 1)) columns' := by
  obtain ⟨hbound, rfl⟩ := assignAll_ok.mp hassign
  refine .of_getElem? ((length_foldl_set _ _).trans h.length) fun b n j s hat ↦ ?_
  have hs : s < columns.length := by
    rw [h.length]
    exact hat.lt_sum
  have hj := hat.entry
  rw [getElem?_foldl_set _ _ _ _ hs, h.getElem? hat]
  by_cases hmem : s ∈ st.firsts.map (· + k)
  · obtain ⟨f, hf, hfs⟩ := List.mem_map.mp hmem
    have hstart := hat.start_le hf (by omega)
    have hmin : j < min (k + 1) n := by omega
    rw [if_pos hmem, if_pos hmin]
  · have hne : j ≠ k := by
      intro hjk
      subst hjk
      exact hmem (List.mem_map.mpr
        ⟨_, mem_starts.mpr ⟨b, n, hat.block, rfl⟩, hat.index.symm⟩)
    have hiff : j < min k n ↔ j < min (k + 1) n := by omega
    rw [if_neg hmem]
    simp only [hiff]

theorem marked_numberPointers (h : ∀ i < k, ∀ s ∈ st.firsts, s + i < st.numStates) :
    ∃ columns, numberPointers st k = .ok columns ∧ Marked st (min k) columns := by
  induction k with
  | zero =>
    refine ⟨List.replicate st.numStates 0, rfl, .of_getElem? List.length_replicate ?_⟩
    intro b n j s hat
    have hs : s < st.numStates := hat.lt_sum
    simp [hs]
  | succ k ih =>
    obtain ⟨columns, hcolumns, hmarked⟩ := ih fun i hi ↦ h i (by omega)
    have hbound : ∀ i ∈ st.firsts.map (· + k), i < columns.length := by
      intro i hi
      obtain ⟨s, hs, rfl⟩ := List.mem_map.mp hi
      rw [hmarked.length]
      exact h k (Nat.lt_succ_self k) s hs
    have hassign : assignAll (st.firsts.map (· + k)) 2 columns = .ok _ :=
      assignAll_ok.mpr ⟨hbound, rfl⟩
    refine ⟨_, ?_, hmarked.round hassign⟩
    rw [numberPointers_succ, hcolumns]
    exact hassign

theorem bounds_of_numberPointers (h : numberPointers st k = .ok columns) :
    ∀ i < k, ∀ s ∈ st.firsts, s + i < st.numStates := by
  induction k generalizing columns with
  | zero => exact fun i hi ↦ absurd hi (Nat.not_lt_zero i)
  | succ k ih =>
    rw [numberPointers_succ] at h
    obtain ⟨columns₀, hcolumns, hassign⟩ := except_bind_ok.mp h
    intro i hi s hs
    rcases Nat.lt_succ_iff_lt_or_eq.mp hi with hlt | rfl
    · exact ih hcolumns i hlt s hs
    · have hbound := (assignAll_ok.mp hassign).1 _ (List.mem_map_of_mem hs)
      rwa [length_numberPointers hcolumns] at hbound

theorem bounds_iff : (∀ i < k, ∀ s ∈ st.firsts, s + i < st.numStates) ↔
    ∀ n, st.intervals.getLast? = some n → k ≤ n := by
  have hlast : ∀ i, (∀ s ∈ st.firsts, s + i < st.numStates) ↔
      ∀ n, st.intervals.getLast? = some n → i < n := fun i ↦ starts_add_lt_iff
  simp only [hlast]
  apply Iff.intro
  · intro h n hn
    by_contra hnot
    exact lt_irrefl n (h n (by omega) n hn)
  · intro h i hi n hn
    have hkn := h n hn
    omega

/-- The border models succeed and mark the first part of every block. The models of a number of
states do so as long as the number is not greater than the last interval. -/
theorem beat_regions (exp : ℚ → ℚ) (hexp : ∀ x, 0 ≤ exp x) (st : BarStateSpace) :
    (∀ b : ℕ, 1 ≤ b → ∃ om columns, BDObservationModel.new exp hexp st (.B b) = .ok om ∧
      om.pointers = .border columns ∧ Marked st (fun n ↦ ⌈(n / b : ℚ)⌉₊) columns) ∧
    ∀ k : ℕ, 1 ≤ k → ((∃ om columns, BDObservationModel.new exp hexp st (.N k) = .ok om ∧
        om.pointers = .border columns ∧ Marked st (fun n ↦ min k n) columns) ↔
      ∀ n, st.intervals.getLast? = some n → k ≤ n) := by
  refine ⟨fun b hb ↦ ?_, fun k _ ↦ ?_⟩
  · obtain ⟨columns, hcolumns, hmarked⟩ := marked_borderPointers st hb
    have hpointers : pointersOf exp st (.B b) = .ok (.border columns) :=
      border_ok.mpr ⟨columns, hcolumns, rfl⟩
    exact ⟨⟨_, fit_pointersOf hexp hpointers⟩, columns, new_ok.mpr hpointers, rfl, hmarked⟩
  · rw [← bounds_iff]
    apply Iff.intro
    · intro h
      obtain ⟨om, columns, hnew, _⟩ := h
      obtain ⟨columns', hcolumns, _⟩ := border_ok.mp (new_ok.mp hnew)
      exact bounds_of_numberPointers hcolumns
    · intro h
      obtain ⟨columns, hcolumns, hmarked⟩ := marked_numberPointers h
      have hpointers : pointersOf exp st (.N k) = .ok (.border columns) :=
        border_ok.mpr ⟨columns, hcolumns, rfl⟩
      exact ⟨⟨_, fit_pointersOf hexp hpointers⟩, columns, new_ok.mpr hpointers, rfl, hmarked⟩

theorem beat_regions_short_block :
    ∃ om columns, BDObservationModel.new steepExp steepExp_nonneg barsOfTwoAndFour (.N (3 : ℕ)) =
      .ok om ∧ om.pointers = .border columns ∧
        Marked barsOfTwoAndFour (fun n ↦ min 3 n) columns :=
  ((beat_regions steepExp steepExp_nonneg barsOfTwoAndFour).2 3 (by decide)).mpr
    fun n hn ↦ by cases hn; decide

/-- Five states of a bar of two to four beats reach beyond the last state. -/
theorem number_marks_beyond :
    ¬ ∀ (exp : ℚ → ℚ) (hexp : ∀ x, 0 ≤ exp x) (st : BarStateSpace), st.intervals ≠ [] →
      st.intervals.Pairwise (· < ·) → ∀ k : ℕ, 1 ≤ k →
        ∃ om columns, BDObservationModel.new exp hexp st (.N k) = .ok om ∧
          om.pointers = .border columns ∧ Marked st (fun n ↦ min k n) columns := by
  intro h
  obtain ⟨om, columns, hnew, _⟩ := h steepExp steepExp_nonneg ⟨[2, 3, 4], by decide⟩ (by decide)
    (by decide) 5 (by decide)
  obtain ⟨columns', hcolumns, _⟩ := border_ok.mp (new_ok.mp hnew)
  have hbound := bounds_iff.mp (bounds_of_numberPointers hcolumns) 4 rfl
  exact absurd hbound (by decide)

end Marks

section Likelihood

variable {st : BarStateSpace} {om : BDObservationModel st} {row columns : List ℚ} {a : ℚ}

def memberships (om : BDObservationModel st) : List ℚ :=
  match om.pointers with
  | .border columns => columns.map fun (column : ℕ) ↦ (column : ℚ)
  | .smooth first _ => first

/-- The model is built by its class, or it is a smooth one with any memberships up to two. -/
inductive Documented (om : BDObservationModel st) : Prop
  | built {exp : ℚ → ℚ} {hexp : ∀ x, 0 ≤ exp x} {observationLambda : ObservationLambda}
      (hnew : BDObservationModel.new exp hexp st observationLambda = .ok om)
  | smooth {first second : List ℚ} (hom : om.pointers = .smooth first second)
      (hle : ∀ p ∈ first, p ≤ 2)

def Ordered (om : BDObservationModel st) (a : ℚ) : Prop :=
  ∀ (s t : ℕ) (m m' w w' : ℚ), (memberships om)[s]? = some m → (memberships om)[t]? = some m' →
    (beatDensities a om)[s]? = some w → (beatDensities a om)[t]? = some w' → m' ≤ m → w' ≤ w

/-- In a smooth model, either all memberships reach the cut-off or none of them lies between the
cut-off and the greater value that replaces what is below it. -/
def Clear (a : ℚ) : Pointers → Prop
  | .border _ => True
  | .smooth first _ => (∀ p ∈ first, 5 / 1000 / a ≤ p) ∨
      ∀ p ∈ first, p < 5 / 1000 / a ∨ 3 / 100 / a ≤ p

theorem values_of_new {exp : ℚ → ℚ} {hexp : ∀ x, 0 ≤ exp x} {observationLambda : ObservationLambda}
    {columns : List ℕ} (hnew : BDObservationModel.new exp hexp st observationLambda = .ok om)
    (hom : om.pointers = .border columns) : ∀ v ∈ columns, v = 0 ∨ v = 2 := by
  have hpointers := new_ok.mp hnew
  rw [hom] at hpointers
  cases observationLambda with
  | B n =>
    obtain ⟨columns', hcolumns, hborder⟩ := border_ok.mp hpointers
    cases hborder
    rw [(borderPointers_ok.mp hcolumns).2]
    intro v hv
    obtain ⟨x, _, rfl⟩ := List.mem_map.mp hv
    split_ifs
    · exact .inr rfl
    · exact .inl rfl
  | N n =>
    obtain ⟨columns', hcolumns, hborder⟩ := border_ok.mp hpointers
    cases hborder
    have hrounds : numberPointers st n = numberPointers st n.toNat := by
      rw [numberPointers, numberPointers, Int.toNat_natCast]
    rw [hrounds] at hcolumns
    obtain ⟨columns', hcolumns', hmarked⟩ :=
      marked_numberPointers (bounds_of_numberPointers hcolumns)
    rw [hcolumns, Except.ok.injEq] at hcolumns'
    exact hcolumns' ▸ hmarked.values
  | G sig _ => cases hpointers

theorem ordered_iff {f : ℚ → ℚ} (hrow : memberships om = row)
    (hweights : beatDensities a om = row.map f) :
    Ordered om a ↔ ∀ x ∈ row, ∀ y ∈ row, y ≤ x → f y ≤ f x := by
  rw [Ordered, hrow, hweights]
  apply Iff.intro
  · intro h x hx y hy hyx
    obtain ⟨s, hs⟩ := List.getElem?_of_mem hx
    obtain ⟨t, ht⟩ := List.getElem?_of_mem hy
    exact h s t x y (f x) (f y) hs ht (by rw [List.getElem?_map, hs]; rfl)
      (by rw [List.getElem?_map, ht]; rfl) hyx
  · intro h s t m m' w w' hs ht hw hw' hle
    rw [List.getElem?_map, hs, Option.map_some, Option.some.injEq] at hw
    rw [List.getElem?_map, ht, Option.map_some, Option.some.injEq] at hw'
    rw [← hw, ← hw']
    exact h m (List.mem_of_getElem? hs) m' (List.mem_of_getElem? ht) hle

theorem floorDensity_ordered_iff (ha : 0 < a) :
    (∀ x ∈ row, ∀ y ∈ row, y ≤ x → floorDensity (y * a) ≤ floorDensity (x * a)) ↔
      (∀ p ∈ row, 5 / 1000 / a ≤ p) ∨ ∀ p ∈ row, p < 5 / 1000 / a ∨ 3 / 100 / a ≤ p := by
  simp only [div_le_iff₀ ha, lt_div_iff₀ ha]
  apply Iff.intro
  · intro h
    by_contra hnot
    push Not at hnot
    obtain ⟨⟨q, hq, hlow⟩, p, hp, hcut, hhigh⟩ := hnot
    have hqp : q ≤ p := le_of_mul_le_mul_right (hlow.le.trans hcut) ha
    have hle := h p hp q hq hqp
    rw [floorDensity, floorDensity, if_pos hlow, if_neg (not_lt.mpr hcut)] at hle
    linarith
  · intro h x hx y hy hyx
    have hmul := mul_le_mul_of_nonneg_right hyx ha.le
    rw [floorDensity, floorDensity]
    split_ifs with hylow hxlow hxlow
    · exact le_rfl
    · rcases h with hall | hnone
      · exact absurd hylow (not_lt.mpr (hall y hy))
      · exact (hnone x hx).resolve_left hxlow
    · exact absurd (hmul.trans_lt hxlow) hylow
    · exact hmul

/-- Weights grow with the membership exactly when no membership is caught between the cut-off and
the value that replaces what lies below it. -/
theorem beat_likelihood (hom : Documented om) (ha : 1 / 10 < a ∧ a ≤ 1) :
    Ordered om a ↔ Clear a om.pointers := by
  cases hpointers : om.pointers with
  | border columns =>
    have hvalues : ∀ v ∈ columns, v = 0 ∨ v = 2 := by
      cases hom with
      | built hnew => exact values_of_new hnew hpointers
      | smooth hom _ => cases hpointers.symm.trans hom
    have hrow : memberships om = columns.map fun (column : ℕ) ↦ (column : ℚ) := by
      rw [memberships, hpointers]
    have hweights : beatDensities a om = (columns.map fun (column : ℕ) ↦ (column : ℚ)).map
        fun m ↦ if m = 2 then a else if m = 0 then 3 / 100 else 0 := by
      rw [beatDensities, hpointers, List.map_map]
      apply List.map_congr_left
      intro v _
      have htwo : (v : ℚ) = 2 ↔ v = 2 := by norm_cast
      simp only [Function.comp_apply, htwo, Nat.cast_eq_zero]
    refine iff_of_true ((ordered_iff hrow hweights).mpr fun x hx y hy hyx ↦ ?_) trivial
    obtain ⟨v, hv, rfl⟩ := List.mem_map.mp hx
    obtain ⟨u, hu, rfl⟩ := List.mem_map.mp hy
    rcases hvalues v hv with rfl | rfl
    · rcases hvalues u hu with rfl | rfl
      · exact le_rfl
      · norm_num at hyx
    · rcases hvalues u hu with rfl | rfl
      · norm_num
        linarith
      · exact le_rfl
  | smooth first second =>
    have hrow : memberships om = first := by
      rw [memberships, hpointers]
    have hweights : beatDensities a om = first.map fun p ↦ floorDensity (p * a) := by
      rw [beatDensities, hpointers]
    rw [ordered_iff hrow hweights]
    exact floorDensity_ordered_iff (by linarith)

theorem beat_likelihood_border : Ordered barsModel (1 / 2) :=
  (beat_likelihood (.built new_barsModel) (by norm_num)).mpr trivial

def roundedExp (x : ℚ) : ℚ :=
  if x = 0 then 1
  else if x = -1 / 2 then 6065 / 10000
  else if x = -2 then 1353 / 10000
  else if x = -9 / 2 then 111 / 10000
  else if x = -8 then 3 / 10000
  else 0

theorem roundedExp_nonneg (x : ℚ) : 0 ≤ roundedExp x := by
  rw [roundedExp]
  split_ifs <;> norm_num

def beatOfTen : BarStateSpace := ⟨[10], by decide⟩

def beatOfTenModel : BDObservationModel beatOfTen where
  pointers := .smooth (gaussianPointers roundedExp beatOfTen (1 / 10)).1
    (gaussianPointers roundedExp beatOfTen (1 / 10)).2
  fit := fit_pointersOf roundedExp_nonneg
    (show pointersOf roundedExp beatOfTen (.G (1 / 10) (by norm_num)) = .ok _ from rfl)

theorem new_beatOfTenModel :
    BDObservationModel.new roundedExp roundedExp_nonneg beatOfTen (.G (1 / 10) (by norm_num)) =
      .ok beatOfTenModel :=
  new_ok.mpr rfl

/-- In a beat of ten states and at half activation, the state at 3/10 of the beat gets a smaller
weight than the state at 4/10, which is further away from the beat. -/
theorem likelihood_falls :
    ¬ ∀ (st : BarStateSpace) (om : BDObservationModel st) (a : ℚ), Documented om →
      1 / 10 < a ∧ a ≤ 1 → Ordered om a := by
  intro h
  have hordered := h beatOfTen beatOfTenModel (1 / 2) (.built new_beatOfTenModel) (by norm_num)
  have hle := hordered 3 4 (111 / 10000) (3 / 10000) (111 / 20000) (3 / 100) (by decide +kernel)
    (by decide +kernel) (by decide +kernel) (by decide +kernel) (by norm_num)
  norm_num at hle

end Likelihood

end BeatNet
