import Mathlib.Tactic

/-!
# Objects that answer calls, and the bounded queue

An object answers one call after another, each from the state the one before left. An object refines
another if a relation between their states survives every call with equal answers; then it does over any
sequence of calls. The bounded queue is the object most buffers with a fixed number of places are meant
to be.
-/

namespace Calls

variable {σ σ' ι ω : Type*}

/-- An object answers a call in a state, unless the call does not return. -/
structure Object (σ ι ω : Type*) where
  call : σ → ι → Option (σ × ω)

/-- The answers to a sequence of calls, and the state after it. -/
def Object.run (A : Object σ ι ω) : σ → List ι → Option (σ × List ω)
  | s, [] => some (s, [])
  | s, i :: is => do
      let (s, o) ← A.call s i
      let (s, os) ← A.run s is
      return (s, o :: os)

/-- Whatever `B` answers to a call, `A` answers too, and the states stay related. -/
def Refines (A : Object σ ι ω) (B : Object σ' ι ω) (R : σ → σ' → Prop) : Prop :=
  ∀ a b i b' o, R a b → B.call b i = some (b', o) → ∃ a', A.call a i = some (a', o) ∧ R a' b'

theorem Refines.run {A : Object σ ι ω} {B : Object σ' ι ω} {R : σ → σ' → Prop} (h : Refines A B R)
    {calls : List ι} {a : σ} {b b' : σ'} {answers : List ω} (hR : R a b) (hrun : B.run b calls = some (b', answers)) :
    ∃ a', A.run a calls = some (a', answers) ∧ R a' b' := by
  induction calls generalizing a b answers with
  | nil =>
      cases hrun
      exact ⟨a, rfl, hR⟩
  | cons i calls ih =>
      simp only [Object.run, Option.bind_eq_bind, Option.bind_eq_some_iff] at hrun
      obtain ⟨⟨b₁, o⟩, hcall, ⟨b₂, os⟩, hrest, heq⟩ := hrun
      cases heq
      obtain ⟨a₁, hcallA, hR₁⟩ := h a b i b₁ o hR hcall
      obtain ⟨a₂, hrestA, hR₂⟩ := ih hR₁ hrest
      refine ⟨a₂, ?_, hR₂⟩
      simp only [Object.run, hcallA, hrestA, Option.bind_eq_bind, Option.bind_some, Option.pure_def]

theorem Object.run_isSome {A : Object σ ι ω} (h : ∀ s i, (A.call s i).isSome) (s : σ) (calls : List ι) :
    ∃ s' answers, A.run s calls = some (s', answers) := by
  induction calls generalizing s with
  | nil => exact ⟨s, [], rfl⟩
  | cons i calls ih =>
      obtain ⟨⟨s₁, o⟩, hcall⟩ := Option.isSome_iff_exists.mp (h s i)
      obtain ⟨s₂, os, hrest⟩ := ih s₁
      refine ⟨s₂, o :: os, ?_⟩
      simp only [Object.run, hcall, hrest, Option.bind_eq_bind, Option.bind_some, Option.pure_def]

end Calls

/-- A queue of at most `capacity` items, the oldest first. -/
structure BoundedQueue (α : Type*) (capacity : Nat) where
  items : List α
  fits : items.length ≤ capacity

namespace BoundedQueue

variable {α : Type*} {capacity : Nat}

def empty : BoundedQueue α capacity := ⟨[], Nat.zero_le _⟩

def put (q : BoundedQueue α capacity) (item : α) : Option (BoundedQueue α capacity) :=
  if h : q.items.length < capacity then
    some ⟨q.items ++ [item], by rw [List.length_append, List.length_singleton]; exact h⟩
  else none

def take (q : BoundedQueue α capacity) : Option (α × BoundedQueue α capacity) :=
  match q with
  | ⟨[], _⟩ => none
  | ⟨item :: items, fits⟩ => some (item, ⟨items, (Nat.le_succ _).trans fits⟩)

theorem put_eq_some {q q' : BoundedQueue α capacity} {item : α} (h : q.put item = some q') :
    q.items.length < capacity ∧ q'.items = q.items ++ [item] := by
  rw [put] at h
  split at h
  next hlt =>
    cases h
    exact ⟨hlt, rfl⟩
  next => cases h

theorem put_eq_none {q : BoundedQueue α capacity} {item : α} (h : q.put item = none) : q.items.length = capacity := by
  rw [put] at h
  split at h
  next => cases h
  next hge =>
    have := q.fits
    omega

theorem take_eq_some {q q' : BoundedQueue α capacity} {item : α} (h : q.take = some (item, q')) :
    q.items = item :: q'.items := by
  obtain ⟨items, fits⟩ := q
  cases items with
  | nil => cases h
  | cons x items =>
      cases h
      rfl

theorem take_eq_none {q : BoundedQueue α capacity} (h : q.take = none) : q.items = [] := by
  obtain ⟨items, fits⟩ := q
  cases items with
  | nil => rfl
  | cons x items => cases h

end BoundedQueue
