import Mathlib.Tactic

/-!
# Custody

Things pass from place to place, each place holding a list of them. What is held is held exclusively
when no list repeats a thing and no two lists share one. Giving away a thing nobody holds, taking one
away, and so handing one over, keep it that way.
-/

namespace Custody

variable {κ ρ : Type*}

/-- Somebody holds the thing. -/
def Held (holds : κ → List ρ) (r : ρ) : Prop := ∃ p, r ∈ holds p

/-- Every thing that is held is in one place, once. -/
structure Exclusive (holds : κ → List ρ) : Prop where
  nodup : ∀ p, (holds p).Nodup
  unique : ∀ {p q r}, r ∈ holds p → r ∈ holds q → p = q

variable [DecidableEq κ]

def give (holds : κ → List ρ) (q : κ) (r : ρ) : κ → List ρ := Function.update holds q (holds q ++ [r])

variable {holds : κ → List ρ} {p q : κ} {r x : ρ}

theorem mem_give {p' : κ} : x ∈ give holds q r p' ↔ x ∈ holds p' ∨ p' = q ∧ x = r := by
  rw [give, Function.update_apply]
  split
  next h => simp [h]
  next h => simp [h]

theorem held_give : Held (give holds q r) x ↔ Held holds x ∨ x = r := by
  constructor
  · intro hheld
    obtain ⟨p, hx⟩ := hheld
    rcases mem_give.mp hx with hx | ⟨-, rfl⟩
    · exact Or.inl ⟨p, hx⟩
    · exact Or.inr rfl
  · rintro (⟨p, hx⟩ | rfl)
    · exact ⟨p, mem_give.mpr (Or.inl hx)⟩
    · exact ⟨q, mem_give.mpr (Or.inr ⟨rfl, rfl⟩)⟩

theorem Exclusive.give (h : Exclusive holds) (hr : ¬Held holds r) (q : κ) : Exclusive (give holds q r) where
  nodup p := by
    rw [Custody.give, Function.update_apply]
    split
    · exact List.nodup_append.mpr ⟨h.nodup q, List.nodup_singleton r, fun a ha b hb hab =>
        hr ⟨q, (hab.trans (List.mem_singleton.mp hb)) ▸ ha⟩⟩
    · exact h.nodup p
  unique {p₁ p₂ x} h₁ h₂ := by
    rcases mem_give.mp h₁ with hx₁ | ⟨rfl, hx₁⟩
    · rcases mem_give.mp h₂ with hx₂ | ⟨rfl, hx₂⟩
      · exact h.unique hx₁ hx₂
      · exact absurd ⟨p₁, hx₂ ▸ hx₁⟩ hr
    · rcases mem_give.mp h₂ with hx₂ | ⟨rfl, hx₂⟩
      · exact absurd ⟨p₂, hx₁ ▸ hx₂⟩ hr
      · rfl

variable [DecidableEq ρ]

def remove (holds : κ → List ρ) (p : κ) (r : ρ) : κ → List ρ := Function.update holds p ((holds p).erase r)

theorem Exclusive.mem_remove (h : Exclusive holds) (hr : r ∈ holds p) {p' : κ} :
    x ∈ remove holds p r p' ↔ x ∈ holds p' ∧ x ≠ r := by
  rw [remove, Function.update_apply]
  split
  next heq =>
    subst heq
    rw [(h.nodup p').mem_erase_iff, and_comm]
  next hne => exact ⟨fun hx => ⟨hx, fun hxr => hne (h.unique (hxr ▸ hx) hr)⟩, And.left⟩

theorem Exclusive.held_remove (h : Exclusive holds) (hr : r ∈ holds p) :
    Held (remove holds p r) x ↔ Held holds x ∧ x ≠ r := by
  constructor
  · intro hheld
    obtain ⟨p', hx⟩ := hheld
    obtain ⟨hx, hne⟩ := (h.mem_remove hr).mp hx
    exact ⟨⟨p', hx⟩, hne⟩
  · intro hheld
    obtain ⟨⟨p', hx⟩, hne⟩ := hheld
    exact ⟨p', (h.mem_remove hr).mpr ⟨hx, hne⟩⟩

theorem Exclusive.remove (h : Exclusive holds) (hr : r ∈ holds p) : Exclusive (remove holds p r) where
  nodup p' := by
    rw [Custody.remove, Function.update_apply]
    split
    · exact (h.nodup p).erase r
    · exact h.nodup p'
  unique {p₁ p₂ x} h₁ h₂ := h.unique ((h.mem_remove hr).mp h₁).1 ((h.mem_remove hr).mp h₂).1

theorem Exclusive.move (h : Exclusive holds) (hr : r ∈ holds p) (q : κ) :
    Exclusive (Custody.give (Custody.remove holds p r) q r) :=
  (h.remove hr).give (fun hheld => ((h.held_remove hr).mp hheld).2 rfl) q

theorem Exclusive.mem_move (h : Exclusive holds) (hr : r ∈ holds p) {p' : κ} :
    x ∈ Custody.give (Custody.remove holds p r) q r p' ↔ x ∈ holds p' ∧ x ≠ r ∨ p' = q ∧ x = r := by
  rw [mem_give, h.mem_remove hr]

theorem Exclusive.held_move (h : Exclusive holds) (hr : r ∈ holds p) :
    Held (Custody.give (Custody.remove holds p r) q r) x ↔ Held holds x := by
  rw [held_give, h.held_remove hr]
  constructor
  · rintro (⟨hx, -⟩ | rfl)
    · exact hx
    · exact ⟨p, hr⟩
  · intro hx
    by_cases hxr : x = r
    · exact Or.inr hxr
    · exact Or.inl ⟨hx, hxr⟩

end Custody
