import Mathlib.Algebra.Order.Group.Multiset

namespace BeatNet.Library.Ledgers

variable {ρ ε α β : Type}

/-- Computations that take resources and give them back. The state is what is held. -/
abbrev Ledger (ρ ε α : Type) := StateT (Multiset ρ) (Except ε) α

def acquire (r : ρ) : Ledger ρ ε Unit := modify (r ::ₘ ·)

def release [DecidableEq ρ] (notHeld : ε) (r : ρ) : Ledger ρ ε Unit := do
  let held ← get
  if r ∈ held then set (held.erase r) else throw notHeld

def part (p : Bool) (r : ρ) : Multiset ρ := if p then {r} else 0

/-- A computation turns some resources into others and has a result that meets `P`, whatever else
is held; or else it ends in one of the errors. -/
def Turns (pre : Multiset ρ) (x : Ledger ρ ε α) (P : α → Prop) (post : α → Multiset ρ)
    (E : ε → Prop) : Prop :=
  ∀ frame, match x.run (frame + pre) with
    | .ok (a, held) => P a ∧ held = frame + post a
    | .error e => E e

namespace Turns

variable {pre pre' rest : Multiset ρ} {x : Ledger ρ ε α} {P Q : α → Prop}
  {post post' : α → Multiset ρ} {E : ε → Prop} {r : ρ}

theorem pure {a : α} (hP : P a) (hpost : post a = pre) :
    Turns pre (Pure.pure a : Ledger ρ ε α) P post E := fun _ ↦ ⟨hP, by rw [hpost]⟩

theorem throw {e : ε} (h : E e) :
    Turns pre (MonadExcept.throw e : Ledger ρ ε α) P post E := fun _ ↦ h

theorem mono (h : Turns pre x P post E) (hpre : pre' = pre)
    (hpost : ∀ a, P a → Q a ∧ post' a = post a) : Turns pre' x Q post' E := by
  intro frame
  have hx := h frame
  rw [hpre]
  cases hr : x.run (frame + pre) with
  | error e =>
    rw [hr] at hx
    exact hx
  | ok p =>
    rw [hr] at hx
    obtain ⟨hQ, heq⟩ := hpost p.1 hx.1
    exact ⟨hQ, heq ▸ hx.2⟩

/-- What a computation does not need is still there after it. -/
theorem frame (h : Turns pre x P post E) (rest : Multiset ρ) :
    Turns (pre + rest) x P (fun a ↦ post a + rest) E := by
  intro others
  have hrun := h (others + rest)
  have hframe : others + (pre + rest) = others + rest + pre := by
    rw [← add_assoc, add_right_comm]
  rw [hframe]
  cases hr : x.run (others + rest + pre) with
  | error e =>
    rw [hr] at hrun
    exact hrun
  | ok p =>
    rw [hr] at hrun
    exact ⟨hrun.1, hrun.2.trans (by rw [add_assoc, add_comm rest])⟩

section Binds

variable {M : α → Prop} {mid : α → Multiset ρ} {R : β → Prop} {last : β → Multiset ρ}
  {f : α → Ledger ρ ε β}

theorem bind (hx : Turns pre x M mid E) (hf : ∀ a, M a → Turns (mid a) (f a) R last E) :
    Turns pre (x >>= f) R last E := by
  intro others
  have hrun := hx others
  rw [StateT.run_bind]
  cases hr : x.run (others + pre) with
  | error e =>
    rw [hr] at hrun
    exact hrun
  | ok p =>
    rw [hr] at hrun
    obtain ⟨hM, hheld⟩ := hrun
    have hnext := hf p.1 hM others
    rw [← hheld] at hnext
    exact hnext

end Binds

theorem acquire (r : ρ) :
    Turns 0 (Ledgers.acquire r : Ledger ρ ε Unit) (fun _ ↦ True) (fun _ ↦ {r}) E := by
  intro frame
  refine ⟨trivial, ?_⟩
  change r ::ₘ (frame + 0) = frame + {r}
  rw [add_zero, ← Multiset.singleton_add, add_comm]

theorem release [DecidableEq ρ] (notHeld : ε) (r : ρ) :
    Turns {r} (Ledgers.release notHeld r) (fun _ ↦ True) (fun _ ↦ 0) E := by
  intro frame
  have hmem : r ∈ frame + {r} := Multiset.mem_add.mpr (.inr (Multiset.mem_singleton_self r))
  have hrun : (Ledgers.release notHeld r).run (frame + {r}) =
      .ok ((), (frame + {r}).erase r) := by
    simp [Ledgers.release, hmem]
    rfl
  rw [hrun]
  refine ⟨trivial, ?_⟩
  change (frame + {r}).erase r = frame + 0
  rw [add_comm, Multiset.singleton_add, Multiset.erase_cons_head, add_zero]

section Loops

variable {κ : Type} {f : β → κ → Ledger ρ ε β} {next : β → κ → β} {gain : β → κ → Multiset ρ}

def gains (next : β → κ → β) (gain : β → κ → Multiset ρ) : List κ → β → Multiset ρ
  | [], _ => 0
  | k :: l, b => gain b k + gains next gain l (next b k)

theorem foldlM (I : List κ → β → Prop)
    (hf : ∀ b k l, I (k :: l) b →
      Turns pre (f b k) (· = next b k) (fun _ ↦ gain b k + pre) E ∧ I l (next b k))
    {l : List κ} {b : β} (h : I l b) :
    Turns pre (l.foldlM f b) (· = l.foldl next b) (fun _ ↦ gains next gain l b + pre) E := by
  induction l generalizing b with
  | nil => exact Turns.pure rfl (zero_add pre)
  | cons k l ih =>
    obtain ⟨hround, hrest⟩ := hf b k l h
    rw [List.foldlM_cons]
    refine hround.bind fun b' hb ↦ ?_
    subst hb
    refine ((ih hrest).frame (gain b k)).mono (add_comm _ _) fun b' hb' ↦ ⟨hb', ?_⟩
    rw [gains, add_assoc, add_comm]

end Loops

end Turns

end BeatNet.Library.Ledgers
