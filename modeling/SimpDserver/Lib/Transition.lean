import Mathlib.Tactic

/-!
# Machines, their runs and their invariants

A machine has start states and a partial `next` function: one label, one atomic step. Everything the
environment chooses, which party moves, what arrives, whether a resource is granted, is in the label,
so a run is a list of labels and can be replayed. A guard says which steps a run may take; a statement
about every admissible order of steps is one about every guarded run.
-/

namespace Transition

universe u v

/-- A labelled machine: its start states, and what each label does where it is enabled. -/
structure Machine (σ : Type u) (ε : Type v) where
  start : σ → Prop
  next : σ → ε → Option σ

variable {σ : Type u} {ε : Type v}

namespace Machine

variable (M : Machine σ ε) (guard : σ → ε → Prop)

/-- `M.Run guard s es t`: the labels `es` take `s` to `t`, each met by a state the guard admits. -/
inductive Run : σ → List ε → σ → Prop
  | nil (s : σ) : Run s [] s
  | snoc {s t u : σ} {es : List ε} {e : ε} (run : Run s es t) (admitted : guard t e)
      (step : M.next t e = some u) : Run s (es ++ [e]) u

/-- The states the guarded runs reach. -/
def Reachable (s : σ) : Prop := ∃ s₀ es, M.start s₀ ∧ M.Run guard s₀ es s

variable {M guard}

theorem Run.single {s t : σ} {e : ε} (admitted : guard s e) (step : M.next s e = some t) :
    M.Run guard s [e] t :=
  Run.snoc (Run.nil s) admitted step

theorem Run.append {s t u : σ} {es fs : List ε} (first : M.Run guard s es t)
    (second : M.Run guard t fs u) : M.Run guard s (es ++ fs) u := by
  induction second with
  | nil => simpa using first
  | snoc _ admitted step ih =>
      rw [← List.append_assoc]
      exact Run.snoc ih admitted step

theorem Run.cons {s t u : σ} {e : ε} {es : List ε} (admitted : guard s e)
    (step : M.next s e = some t) (rest : M.Run guard t es u) : M.Run guard s (e :: es) u :=
  (Run.single admitted step).append rest

/-- What one guarded step preserves, a guarded run preserves. -/
theorem Run.preserves {I : σ → Prop}
    (hstep : ∀ s e t, I s → guard s e → M.next s e = some t → I t)
    {s t : σ} {es : List ε} (run : M.Run guard s es t) (hs : I s) : I t := by
  induction run with
  | nil => exact hs
  | snoc _ admitted step ih => exact hstep _ _ _ ih admitted step

theorem Run.weaken {guard' : σ → ε → Prop} (himp : ∀ s e, guard s e → guard' s e) {s t : σ} {es : List ε}
    (run : M.Run guard s es t) : M.Run guard' s es t := by
  induction run with
  | nil => exact Run.nil _
  | snoc _ admitted step ih => exact Run.snoc ih (himp _ _ admitted) step

theorem Reachable.start {s : σ} (hs : M.start s) : M.Reachable guard s :=
  ⟨s, [], hs, Run.nil s⟩

theorem Reachable.step {s t : σ} {e : ε} (hs : M.Reachable guard s) (admitted : guard s e)
    (step : M.next s e = some t) : M.Reachable guard t := by
  obtain ⟨s₀, es, hstart, run⟩ := hs
  exact ⟨s₀, es ++ [e], hstart, Run.snoc run admitted step⟩

/-- The invariant rule: what holds at the start and survives every guarded step holds wherever a
guarded run leads. -/
theorem Reachable.invariant {I : σ → Prop} (hstart : ∀ s, M.start s → I s)
    (hstep : ∀ s e t, I s → guard s e → M.next s e = some t → I t)
    {s : σ} (hs : M.Reachable guard s) : I s := by
  obtain ⟨s₀, es, h₀, run⟩ := hs
  exact run.preserves hstep (hstart s₀ h₀)

/-- A guard that every reachable state turns into a second guard reaches only what the second one
reaches. -/
theorem Reachable.weaken {guard' : σ → ε → Prop}
    (himp : ∀ s e, M.Reachable guard s → M.Reachable guard' s → guard s e → guard' s e)
    {s : σ} (hs : M.Reachable guard s) : M.Reachable guard' s := by
  obtain ⟨s₀, es, h₀, run⟩ := hs
  induction run with
  | nil => exact .start h₀
  | snoc run admitted step ih =>
      exact ih.step (himp _ _ ⟨_, _, h₀, run⟩ ih admitted) step

section Measure

variable {measure : σ → Nat}

/-- What every admitted step uses up bounds the runs. -/
theorem Run.length_add_le (hstep : ∀ s e t, guard s e → M.next s e = some t → measure t < measure s) {s t : σ}
    {es : List ε} (run : M.Run guard s es t) : es.length + measure t ≤ measure s := by
  induction run with
  | nil => exact (Nat.zero_add _).le
  | snoc _ admitted step ih =>
      have := hstep _ _ _ admitted step
      rw [List.length_append, List.length_singleton]
      omega

/-- Where what is not done can be brought nearer, a run gets it done. -/
theorem Run.exists_done {I done : σ → Prop} (measure : σ → Nat)
    (hprogress : ∀ s, I s → ¬done s → ∃ es t, M.Run guard s es t ∧ I t ∧ measure t < measure s) {s : σ} (hs : I s) :
    ∃ es t, M.Run guard s es t ∧ I t ∧ done t := by
  induction hn : measure s using Nat.strong_induction_on generalizing s with
  | _ n ih =>
      by_cases hdone : done s
      · exact ⟨[], s, Run.nil s, hs, hdone⟩
      obtain ⟨es, t, run, ht, hlt⟩ := hprogress s hs hdone
      obtain ⟨fs, u, rest, hu⟩ := ih _ (hn ▸ hlt) ht rfl
      exact ⟨es ++ fs, u, run.append rest, hu⟩

end Measure

section Replay

variable (M) (guard : σ → ε → Prop) [∀ s e, Decidable (guard s e)]

/-- Run a list of labels, checking the guard at each. -/
def replay : σ → List ε → Option σ
  | s, [] => some s
  | s, e :: es => if guard s e then (M.next s e).bind (replay · es) else none

variable {M guard}

theorem Run.of_replay {s t : σ} {es : List ε} (h : M.replay guard s es = some t) :
    M.Run guard s es t := by
  induction es generalizing s with
  | nil =>
      cases h
      exact Run.nil _
  | cons e es ih =>
      rw [replay] at h
      split at h
      next hguard =>
        obtain ⟨m, hnext, hrest⟩ := Option.bind_eq_some_iff.mp h
        exact Run.cons hguard hnext (ih hrest)
      next => simp at h

theorem Reachable.of_replay {s : σ} (hs : M.start s) (es : List ε) {ω : Type*} {f : σ → ω} {v : ω}
    (h : (M.replay guard s es).map f = some v) : ∃ t, M.Reachable guard t ∧ f t = v := by
  obtain ⟨t, ht, hv⟩ := Option.map_eq_some_iff.mp h
  exact ⟨t, ⟨s, es, hs, Run.of_replay ht⟩, hv⟩

end Replay

end Machine

end Transition
