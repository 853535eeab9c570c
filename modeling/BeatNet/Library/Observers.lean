import BeatNet.Library.Effects

namespace BeatNet.Library.Observers

open Library.Effects

variable {σ ε α β γ δ : Type}

/-- A computation that computes something besides another one: but for what it computes besides, it
has the same result, leaves the same state, and fails in the same way. -/
def Shadows (x : StateT σ (Except ε) (α × δ)) (y : StateT σ (Except ε) α) : Prop :=
  ∀ s, (x.run s).map (fun r ↦ (r.1.1, r.2)) = y.run s

namespace Shadows

variable {x : StateT σ (Except ε) (α × δ)} {y : StateT σ (Except ε) α} {P : α → Prop}

theorem pure (a : α) (d : δ) :
    Shadows (Pure.pure (a, d) : StateT σ (Except ε) (α × δ)) (Pure.pure a) := fun _ ↦ rfl

theorem bind {f : α × δ → StateT σ (Except ε) (β × γ)} {h : α → StateT σ (Except ε) β}
    (hx : Shadows x y) (hy : Meets y P fun _ ↦ True)
    (hf : ∀ a d, P a → Shadows (f (a, d)) (h a)) : Shadows (x >>= f) (y >>= h) := by
  intro s
  have hs := hx s
  have hmeets := hy s
  rw [StateT.run_bind, StateT.run_bind, ← hs]
  rw [← hs] at hmeets
  cases hr : x.run s with
  | error e => rfl
  | ok r =>
    rw [hr] at hmeets
    exact hf r.1.1 r.1.2 hmeets r.2

theorem bind_same {f : α → StateT σ (Except ε) (β × γ)} {h : α → StateT σ (Except ε) β}
    (hy : Meets y P fun _ ↦ True) (hf : ∀ a, P a → Shadows (f a) (h a)) :
    Shadows (y >>= f) (y >>= h) := by
  intro s
  have hmeets := hy s
  rw [StateT.run_bind, StateT.run_bind]
  cases hr : y.run s with
  | error e => rfl
  | ok r =>
    rw [hr] at hmeets
    exact hf r.1 hmeets r.2

theorem lift_bind {e : Except ε γ} {c : γ} {f : γ → StateT σ (Except ε) (α × δ)} (he : e = .ok c)
    (hf : Shadows (f c) y) : Shadows ((liftM e : StateT σ (Except ε) γ) >>= f) y := by
  subst he
  exact hf

theorem foldlM {κ : Type} {f : α × δ → κ → StateT σ (Except ε) (α × δ)}
    {h : α → κ → StateT σ (Except ε) α} {I : List κ → α → Prop} {l : List κ}
    (hmeets : ∀ k rest a, I (k :: rest) a → Meets (h a k) (I rest) fun _ ↦ True)
    (hstep : ∀ k rest a d, I (k :: rest) a → Shadows (f (a, d) k) (h a k)) {a : α} {d : δ}
    (ha : I l a) : Shadows (l.foldlM f (a, d)) (l.foldlM h a) := by
  induction l generalizing a d with
  | nil => exact pure a d
  | cons k l ih =>
    rw [List.foldlM_cons, List.foldlM_cons]
    exact (hstep k l a d ha).bind (hmeets k l a ha) fun b d' hb ↦ ih hb

end Shadows

end BeatNet.Library.Observers
