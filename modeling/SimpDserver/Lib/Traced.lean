import Mathlib.Tactic

/-!
# Computations that note what they touch

A computation that may not return, with a list of the accesses it made. `m.Within allowed a` says that it
returns `a` and that every access it made on the way is allowed. The rules below take such a statement
apart along the computation, so that a bound on the accesses of a loop is an induction over the loop.
-/

/-- The accesses made, and what is returned, if anything is. -/
structure Traced (ε α : Type) where
  log : List ε
  result : Option α

namespace Traced

variable {ε α β : Type}

instance : Monad (Traced ε) where
  pure a := ⟨[], some a⟩
  bind m f :=
    match m.result with
    | none => ⟨m.log, none⟩
    | some a => ⟨m.log ++ (f a).log, (f a).result⟩

/-- Note some accesses. -/
def touches (es : List ε) : Traced ε Unit := ⟨es, some ()⟩

def touch (e : ε) : Traced ε Unit := touches [e]

/-- A computation that accesses nothing. -/
def lift (x : Option α) : Traced ε α := ⟨[], x⟩

/-! ### The result alone -/

@[simp] theorem result_pure (a : α) : (pure a : Traced ε α).result = some a := rfl

@[simp] theorem result_bind (m : Traced ε α) (f : α → Traced ε β) :
    (m >>= f).result = m.result.bind fun a => (f a).result := by
  obtain ⟨log, result⟩ := m
  cases result <;> rfl

@[simp] theorem result_touches (es : List ε) : (touches es).result = some () := rfl

@[simp] theorem result_touch (e : ε) : (touch e).result = some () := rfl

@[simp] theorem result_lift (x : Option α) : (lift x : Traced ε α).result = x := rfl

/-! ### The accesses -/

variable {allowed : ε → Prop}

/-- The computation returns `a`, and every access it makes is allowed. -/
def Within (allowed : ε → Prop) (m : Traced ε α) (a : α) : Prop := m.result = some a ∧ ∀ e ∈ m.log, allowed e

@[simp] theorem within_pure {a b : α} : (pure a : Traced ε α).Within allowed b ↔ a = b := by
  refine ⟨fun h => Option.some.inj h.1, fun h => ⟨congrArg some h, fun e he => ?_⟩⟩
  exact absurd he List.not_mem_nil

@[simp] theorem within_touches {es : List ε} {u : Unit} :
    (touches es).Within allowed u ↔ ∀ e ∈ es, allowed e :=
  ⟨fun h => h.2, fun h => ⟨rfl, h⟩⟩

@[simp] theorem within_touch {e : ε} {u : Unit} : (touch e).Within allowed u ↔ allowed e := by
  rw [touch, within_touches, List.forall_mem_singleton]

@[simp] theorem within_lift {x : Option α} {a : α} : (lift x : Traced ε α).Within allowed a ↔ x = some a :=
  ⟨fun h => h.1, fun h => ⟨h, fun _ he => absurd he List.not_mem_nil⟩⟩

@[simp] theorem within_bind {m : Traced ε α} {f : α → Traced ε β} {b : β} :
    (m >>= f).Within allowed b ↔ ∃ a, m.Within allowed a ∧ (f a).Within allowed b := by
  obtain ⟨log, result⟩ := m
  cases result with
  | none => exact ⟨fun h => absurd h.1 (Option.some_ne_none b).symm, fun ⟨_, h, _⟩ => absurd h.1 (Option.some_ne_none _).symm⟩
  | some a =>
      constructor
      · intro ⟨hresult, hlog⟩
        refine ⟨a, ⟨rfl, fun e he => hlog e (List.mem_append_left _ he)⟩, hresult, fun e he => ?_⟩
        exact hlog e (List.mem_append_right _ he)
      · intro ⟨a', ⟨ha, hlog⟩, hresult, hlog'⟩
        cases ha
        exact ⟨hresult, fun e he => (List.mem_append.mp he).elim (hlog e) (hlog' e)⟩

theorem within_true {m : Traced ε α} {a : α} : m.Within (fun _ => True) a ↔ m.result = some a :=
  ⟨fun h => h.1, fun h => ⟨h, fun _ _ => trivial⟩⟩

theorem Within.mono {allowed' : ε → Prop} {m : Traced ε α} {a : α} (h : m.Within allowed a)
    (himp : ∀ e, allowed e → allowed' e) : m.Within allowed' a :=
  ⟨h.1, fun e he => himp e (h.2 e he)⟩

end Traced
