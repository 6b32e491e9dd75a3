import SimpDserver.Lib.Transition

/-!
# Simulations between machines

A machine seen through a function on its states may be another machine: each of its steps is then one
step there, or none that can be seen. So is a part of a machine, the function being the projection to
it. What is reachable in the one is reachable, so seen, in the other.
-/

namespace Transition

variable {σ σ' σ'' ε ε' ε'' : Type*}

/-- Seen through `f`, a guarded step of `M` is a guarded step of `N` or a stutter. -/
structure Simulation (M : Machine σ ε) (guard : σ → ε → Prop) (N : Machine σ' ε') (guard' : σ' → ε' → Prop)
    (f : σ → σ') : Prop where
  start : ∀ s, M.start s → N.start (f s)
  step : ∀ s e t, M.Reachable guard s → N.Reachable guard' (f s) → guard s e → M.next s e = some t →
    f t = f s ∨ ∃ e', guard' (f s) e' ∧ N.next (f s) e' = some (f t)

variable {M : Machine σ ε} {guard : σ → ε → Prop} {N : Machine σ' ε'} {guard' : σ' → ε' → Prop} {f : σ → σ'}

theorem Simulation.reachable (h : Simulation M guard N guard' f) {s : σ} (hs : M.Reachable guard s) :
    N.Reachable guard' (f s) := by
  obtain ⟨s₀, es, hstart, hrun⟩ := hs
  induction hrun with
  | nil => exact .start (h.start _ hstart)
  | snoc run admitted step ih =>
      obtain hsame | ⟨e', hadmitted, hstep⟩ := h.step _ _ _ ⟨_, _, hstart, run⟩ ih admitted step
      · exact hsame ▸ ih
      · exact ih.step hadmitted hstep

end Transition
