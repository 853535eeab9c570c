import Mathlib.Data.List.Induction

namespace BeatNet.Library.Machines

variable {ι ο σ τ : Type}

/-- The outputs of a machine on a list of inputs, and the state after them. -/
def trace (step : ι → σ → ο × σ) : List ι → σ → List ο × σ
  | [], s => ([], s)
  | x :: xs, s =>
    let now := step x s
    let rest := trace step xs now.2
    (now.1 :: rest.1, rest.2)

variable {step : ι → σ → ο × σ} {step' : ι → τ → ο × τ}

@[simp] theorem trace_nil (s : σ) : trace step [] s = ([], s) := rfl

@[simp] theorem trace_cons (x : ι) (xs : List ι) (s : σ) :
    trace step (x :: xs) s =
      ((step x s).1 :: (trace step xs (step x s).2).1, (trace step xs (step x s).2).2) := rfl

theorem trace_append (xs ys : List ι) (s : σ) :
    trace step (xs ++ ys) s =
      ((trace step xs s).1 ++ (trace step ys (trace step xs s).2).1,
        (trace step ys (trace step xs s).2).2) := by
  induction xs generalizing s with
  | nil => rfl
  | cons x xs ih => simp [ih]

theorem trace_concat (xs : List ι) (x : ι) (s : σ) :
    trace step (xs ++ [x]) s =
      ((trace step xs s).1 ++ [(step x (trace step xs s).2).1],
        (step x (trace step xs s).2).2) := by
  rw [trace_append]
  rfl

theorem length_trace (xs : List ι) (s : σ) : (trace step xs s).1.length = xs.length := by
  induction xs generalizing s with
  | nil => rfl
  | cons x xs ih => simp [ih]

theorem trace_invariant {I : σ → Prop} {P : ο → Prop}
    (hstep : ∀ x s, I s → P (step x s).1 ∧ I (step x s).2) {s : σ} (hs : I s) (xs : List ι) :
    (∀ o ∈ (trace step xs s).1, P o) ∧ I (trace step xs s).2 := by
  induction xs generalizing s with
  | nil => exact ⟨by simp, hs⟩
  | cons x xs ih =>
    obtain ⟨hout, hnext⟩ := hstep x s hs
    obtain ⟨houts, hfinal⟩ := ih hnext
    exact ⟨List.forall_mem_cons.mpr ⟨hout, houts⟩, hfinal⟩

/-- Machines that answer alike in related states, and stay related, have the same outputs. -/
theorem trace_simulates {R : σ → τ → Prop}
    (hstep : ∀ x s t, R s t → (step x s).1 = (step' x t).1 ∧ R (step x s).2 (step' x t).2)
    {s : σ} {t : τ} (hst : R s t) (xs : List ι) :
    (trace step xs s).1 = (trace step' xs t).1 ∧ R (trace step xs s).2 (trace step' xs t).2 := by
  induction xs generalizing s t with
  | nil => exact ⟨rfl, hst⟩
  | cons x xs ih =>
    obtain ⟨hout, hnext⟩ := hstep x s t hst
    obtain ⟨houts, hfinal⟩ := ih hnext
    exact ⟨by simp [hout, houts], hfinal⟩

theorem trace_graded {I : ℕ → σ → Prop} {P : ο → Prop}
    (hstep : ∀ n x s, I n s → P (step x s).1 ∧ I (n + 1) (step x s).2) {n : ℕ} {s : σ} (hs : I n s)
    (xs : List ι) : (∀ o ∈ (trace step xs s).1, P o) ∧ I (n + xs.length) (trace step xs s).2 := by
  induction xs generalizing n s with
  | nil => exact ⟨by simp, hs⟩
  | cons x xs ih =>
    obtain ⟨hout, hnext⟩ := hstep n x s hs
    obtain ⟨houts, hfinal⟩ := ih hnext
    rw [List.length_cons, Nat.add_comm xs.length, ← Nat.add_assoc]
    exact ⟨List.forall_mem_cons.mpr ⟨hout, houts⟩, hfinal⟩

/-- A machine that is started anew for every input answers like one that runs on just when, after
all that has gone before, the next input gets the answer it gets first. -/
theorem trace_eq_map_iff (s : σ) (xs : List ι) :
    (trace step xs s).1 = xs.map (fun x ↦ (step x s).1) ↔
      ∀ before x, before ++ [x] <+: xs → (step x (trace step before s).2).1 = (step x s).1 := by
  induction xs using List.reverseRecOn with
  | nil => simp
  | append_singleton xs y ih =>
    rw [trace_concat, List.map_append]
    apply Iff.intro
    · intro h before x hbefore
      obtain ⟨hxs, hy⟩ := List.append_inj' h rfl
      rcases List.prefix_concat_iff.mp hbefore with heq | hbefore
      · obtain ⟨rfl, hx⟩ := List.append_inj' heq rfl
        cases hx
        exact List.head_eq_of_cons_eq hy
      · exact ih.mp hxs before x hbefore
    · intro h
      have hxs := ih.mpr fun before x hbefore ↦ h before x (hbefore.trans (List.prefix_append _ _))
      rw [hxs, h xs y List.prefix_rfl]
      rfl

section Stacks

variable {κ μ : Type}

def stack (first : ι → σ → μ × σ) (second : μ → τ → ο × τ) (x : ι) (s : σ × τ) : ο × σ × τ :=
  let now := first x s.1
  let out := second now.1 s.2
  (out.1, now.2, out.2)

/-- It makes no difference whether the first machine is run on all inputs before the second one
starts, or the two take turns. -/
theorem trace_stack (first : ι → σ → μ × σ) (second : μ → τ → ο × τ) (xs : List ι) (s : σ) (t : τ) :
    trace (stack first second) xs (s, t) =
      ((trace second (trace first xs s).1 t).1, (trace first xs s).2,
        (trace second (trace first xs s).1 t).2) := by
  induction xs generalizing s t with
  | nil => rfl
  | cons x xs ih =>
    rw [trace_cons, stack, ih]
    rfl

theorem trace_map (f : κ → ι) (xs : List κ) (s : σ) :
    trace step (xs.map f) s = trace (fun x ↦ step (f x)) xs s := by
  induction xs generalizing s with
  | nil => rfl
  | cons x xs ih => rw [List.map_cons, trace_cons, trace_cons, ih]

theorem map_trace (f : ο → κ) (xs : List ι) (s : σ) :
    trace (fun x s ↦ (f (step x s).1, (step x s).2)) xs s =
      ((trace step xs s).1.map f, (trace step xs s).2) := by
  induction xs generalizing s with
  | nil => rfl
  | cons x xs ih => rw [trace_cons, trace_cons, ih, List.map_cons]

theorem trace_flatten (xss : List (List ι)) (s : σ) :
    trace step xss.flatten s =
      ((trace (trace step) xss s).1.flatten, (trace (trace step) xss s).2) := by
  induction xss generalizing s with
  | nil => rfl
  | cons xs xss ih => rw [List.flatten_cons, trace_append, ih, trace_cons, List.flatten_cons]

end Stacks

end BeatNet.Library.Machines
