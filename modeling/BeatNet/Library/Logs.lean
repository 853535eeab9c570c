import Mathlib.Data.List.Chain

namespace BeatNet.Library.Logs

variable {α : Type} {p : α → Prop} {R : α → α → Prop}

/-- A log that grows at its end. Every entry satisfies `p` and stands in the
relation `R` to the entry before it. -/
structure Log (p : α → Prop) (R : α → α → Prop) where
  entries : List α
  sound : ∀ a ∈ entries, p a
  linked : entries.IsChain R

namespace Log

variable {l l' : Log p R} {a : α}

def empty : Log p R := ⟨[], fun _ h ↦ absurd h List.not_mem_nil, List.isChain_nil⟩

def Admits (l : Log p R) (a : α) : Prop := p a ∧ ∀ b ∈ l.entries.getLast?, R b a

def push (l : Log p R) (a : α) (h : l.Admits a) : Log p R where
  entries := l.entries ++ [a]
  sound b hb := by
    rcases List.mem_append.mp hb with hb | hb
    · exact l.sound b hb
    · rw [List.mem_singleton.mp hb]
      exact h.1
  linked := by
    refine List.isChain_append.mpr ⟨l.linked, List.isChain_singleton a, fun b hb x hx ↦ ?_⟩
    rw [List.head?_singleton, Option.mem_some_iff] at hx
    exact hx ▸ h.2 b hb

inductive Step : Log p R → Log p R → Prop
  | stay (l : Log p R) : Step l l
  | push (l : Log p R) (a : α) (h : l.Admits a) : Step l (l.push a h)

theorem exists_step {new : Option α} (h : ∀ a ∈ new, l.Admits a) :
    ∃ l', l'.entries = l.entries ++ new.toList ∧ Step l l' := by
  cases new with
  | none => exact ⟨l, (List.append_nil _).symm, .stay l⟩
  | some a => exact ⟨l.push a (h a rfl), rfl, .push l a (h a rfl)⟩

end Log

end BeatNet.Library.Logs
