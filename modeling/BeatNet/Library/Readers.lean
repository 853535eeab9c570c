import Mathlib.Data.List.Basic

namespace BeatNet.Library.Readers

variable {ρ β σ : Type}

/-- A computation that may ask a source for replies before it returns. -/
inductive Reader (ρ β : Type)
  | ret (result : β)
  | ask (next : ρ → Reader ρ β)

namespace Reader

def asks : Reader ρ β → Bool
  | ret _ => false
  | ask _ => true

/-- The result, the replies on the way to it, and the source after them. -/
def serve (source : σ → ρ × σ) : Reader ρ β → σ → β × List ρ × σ
  | ret result, s => (result, [], s)
  | ask next, s =>
    let reply := source s
    let rest := serve source (next reply.1) reply.2
    (rest.1, reply.1 :: rest.2.1, rest.2.2)

variable {source : σ → ρ × σ}

@[simp] theorem serve_ret (result : β) (s : σ) :
    serve source (ret result) s = (result, [], s) := rfl

@[simp] theorem serve_ask (next : ρ → Reader ρ β) (s : σ) :
    serve source (ask next) s =
      ((serve source (next (source s).1) (source s).2).1,
        (source s).1 :: (serve source (next (source s).1) (source s).2).2.1,
        (serve source (next (source s).1) (source s).2).2.2) := rfl

theorem replies_of_fixed {s : σ} {reply : ρ} (h : source s = (reply, s)) (r : Reader ρ β) :
    ∀ x ∈ (serve source r s).2.1, x = reply := by
  induction r with
  | ret result => simp
  | ask next ih =>
    rw [serve_ask, h, List.forall_mem_cons]
    exact ⟨rfl, ih reply⟩

end Reader

end BeatNet.Library.Readers
