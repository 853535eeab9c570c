import Mathlib.Logic.Basic
import Mathlib.Tactic.TypeStar

namespace BeatNet.Library.Effects

variable {σ ε α β γ : Type}

/-- A stateful computation that may fail meets `P` on every result and
`E` on every error, whatever state it starts from. -/
def Meets (x : StateT σ (Except ε) α) (P : α → Prop) (E : ε → Prop) : Prop :=
  ∀ s, match x.run s with
    | .ok (a, _) => P a
    | .error e => E e

theorem run_bind_ok {x : StateT σ (Except ε) α} {f : α → StateT σ (Except ε) β}
    {s s' : σ} {b : β} :
    (x >>= f).run s = .ok (b, s') ↔
      ∃ a t, x.run s = .ok (a, t) ∧ (f a).run t = .ok (b, s') := by
  rw [StateT.run_bind]
  apply Iff.intro
  · intro h
    cases hx : x.run s with
    | error e => rw [hx] at h; cases h
    | ok p => rw [hx] at h; exact ⟨p.1, p.2, rfl, h⟩
  · intro h
    obtain ⟨a, t, hx, hf⟩ := h
    rw [hx]
    exact hf

theorem except_bind_ok {x : Except ε α} {f : α → Except ε β} {b : β} :
    x >>= f = .ok b ↔ ∃ a, x = .ok a ∧ f a = .ok b := by
  cases x with
  | error e =>
    apply Iff.intro
    · intro h; cases h
    · rintro ⟨_, h, _⟩; cases h
  | ok a =>
    apply Iff.intro
    · intro h; exact ⟨a, rfl, h⟩
    · rintro ⟨_, h, hf⟩; cases h; exact hf

theorem run_pure_ok {a b : α} {s s' : σ} :
    (pure a : StateT σ (Except ε) α).run s = .ok (b, s') ↔ a = b ∧ s = s' := by
  rw [StateT.run_pure]
  apply Iff.intro
  · intro h
    have hp := Except.ok.inj h
    exact ⟨congrArg Prod.fst hp, congrArg Prod.snd hp⟩
  · intro h
    obtain ⟨rfl, rfl⟩ := h
    rfl

theorem run_lift_ok {x : Except ε α} {a : α} {s s' : σ} :
    (liftM x : StateT σ (Except ε) α).run s = .ok (a, s') ↔ x = .ok a ∧ s = s' := by
  cases x with
  | error e =>
    apply Iff.intro
    · intro h; cases h
    · rintro ⟨h, _⟩; cases h
  | ok b =>
    apply Iff.intro
    · intro h; cases h; exact ⟨rfl, rfl⟩
    · rintro ⟨h, rfl⟩; cases h; rfl

theorem run_bind_lift {x : StateT σ (Except ε) α} {f : α → Except ε β} {s s' : σ} {a : α}
    (hx : x.run s = .ok (a, s')) :
    (x >>= fun a ↦ (liftM (f a) : StateT σ (Except ε) β)).run s = (f a).map fun b ↦ (b, s') := by
  rw [StateT.run_bind, hx]
  change (liftM (f a) : StateT σ (Except ε) β).run s' = _
  cases f a <;> rfl

namespace Meets

variable {x : StateT σ (Except ε) α} {P : α → Prop} {E : ε → Prop}

theorem ok (h : Meets x P E) {s s' : σ} {a : α} (hx : x.run s = .ok (a, s')) : P a := by
  have hs := h s
  rwa [hx] at hs

theorem error (h : Meets x P E) {s : σ} {e : ε} (hx : x.run s = .error e) : E e := by
  have hs := h s
  rwa [hx] at hs

theorem fails (h : Meets x (fun _ ↦ False) E) (s : σ) : ∃ e, E e ∧ x.run s = .error e := by
  have hs := h s
  cases hx : x.run s with
  | error e =>
    rw [hx] at hs
    exact ⟨e, hs, rfl⟩
  | ok p =>
    rw [hx] at hs
    exact hs.elim

theorem mono {Q : α → Prop} {F : ε → Prop} (h : Meets x P E)
    (hp : ∀ a, P a → Q a) (hf : ∀ e, E e → F e) : Meets x Q F := by
  intro s
  have hs := h s
  cases hx : x.run s with
  | error e => rw [hx] at hs; exact hf e hs
  | ok p => rw [hx] at hs; exact hp p.1 hs

theorem of_forall (h : ∀ a, P a) : Meets x P fun _ ↦ True := by
  intro s
  cases x.run s with
  | error e => trivial
  | ok p => exact h p.1

theorem pure {a : α} (h : P a) : Meets (Pure.pure a : StateT σ (Except ε) α) P E :=
  fun _ ↦ h

theorem throw {e : ε} (h : E e) :
    Meets (MonadExcept.throw e : StateT σ (Except ε) α) P E :=
  fun _ ↦ h

theorem bind {M : α → Prop} {Q : β → Prop} {f : α → StateT σ (Except ε) β}
    (hx : Meets x M E) (hf : ∀ a, M a → Meets (f a) Q E) :
    Meets (x >>= f) Q E := by
  intro s
  have hs := hx s
  rw [StateT.run_bind]
  cases hr : x.run s with
  | error e => rw [hr] at hs; exact hs
  | ok p => rw [hr] at hs; exact hf p.1 hs p.2

theorem pass {Q : β → Prop} {f : α → StateT σ (Except ε) β}
    (hf : ∀ a, Meets (f a) Q fun _ ↦ True) : Meets (x >>= f) Q fun _ ↦ True :=
  (of_forall (P := fun _ ↦ True) fun _ ↦ trivial).bind fun a _ ↦ hf a

theorem lift {y : Except ε α} (hok : ∀ a, y = .ok a → P a)
    (herr : ∀ e, y = .error e → E e) :
    Meets (liftM y : StateT σ (Except ε) α) P E := by
  intro s
  cases hy : y with
  | error e => exact herr e hy
  | ok a => exact hok a hy

theorem bind_lift {Q : β → Prop} {y : Except ε α} {f : α → StateT σ (Except ε) β} {a : α}
    (hy : y = .ok a) (hf : Meets (f a) Q E) :
    Meets ((liftM y : StateT σ (Except ε) α) >>= f) Q E :=
  (lift (P := (· = a)) (fun b hb ↦ by rw [hy] at hb; exact (Except.ok.inj hb).symm)
    fun e he ↦ by rw [hy] at he; cases he).bind fun b hb ↦ hb ▸ hf

theorem foldlM_rest {f : β → α → StateT σ (Except ε) β} {I : List α → β → Prop} {l : List α}
    (hf : ∀ a rest b, a ∈ l → I (a :: rest) b → Meets (f b a) (I rest) E)
    {b : β} (hb : I l b) : Meets (l.foldlM f b) (I []) E := by
  induction l generalizing b with
  | nil => exact Meets.pure hb
  | cons a l ih =>
    rw [List.foldlM_cons]
    refine (hf a l b List.mem_cons_self hb).bind fun c hc ↦ ?_
    exact ih (fun a' rest b' ha' ↦ hf a' rest b' (List.mem_cons_of_mem _ ha')) hc

end Meets

end BeatNet.Library.Effects
