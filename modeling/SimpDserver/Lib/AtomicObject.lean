import SimpDserver.Lib.Transition

/-!
# Objects that answer at one instant

An object that threads call, each call taking effect at one instant between its call and its return. An
object whose histories of calls and returns are all histories of such a one is linearizable. The answer
to a call is a function of the calls that took effect before it.
-/

namespace Atomic

open Transition

variable {τ κ ρ : Type*}

/-- What can be seen from outside. -/
inductive Mark (τ κ ρ : Type*) where
  | called (t : τ) (c : κ)
  | returned (t : τ) (c : κ) (r : ρ)

/-- Where a thread is: outside a call, in one that has not taken effect, in one that has its answer. -/
inductive Status (κ ρ : Type*) where
  | idle
  | called (c : κ)
  | done (c : κ) (r : ρ)

/-- The calls that took effect, the threads, and the history. -/
structure Object (τ κ ρ : Type*) where
  committed : List κ
  status : τ → Status κ ρ
  log : List (Mark τ κ ρ)

inductive Label (τ κ : Type*) where
  | call (t : τ) (c : κ)
  | commit (t : τ)
  | ret (t : τ)

def Object.initial : Object τ κ ρ := ⟨[], fun _ => .idle, []⟩

variable [DecidableEq τ] (answer : List κ → κ → ρ)

def Object.next (a : Object τ κ ρ) : Label τ κ → Option (Object τ κ ρ)
  | .call t c => match a.status t with
      | .idle => some ⟨a.committed, Function.update a.status t (.called c), a.log ++ [.called t c]⟩
      | _ => none
  | .commit t => match a.status t with
      | .called c => some ⟨a.committed ++ [c], Function.update a.status t (.done c (answer a.committed c)), a.log⟩
      | _ => none
  | .ret t => match a.status t with
      | .done c r => some ⟨a.committed, Function.update a.status t .idle, a.log ++ [.returned t c r]⟩
      | _ => none

/-- The object, before its first call. -/
def object : Machine (Object τ κ ρ) (Label τ κ) where
  start a := a = .initial
  next := Object.next answer

/-- What one label does. -/
inductive Object.Move (a : Object τ κ ρ) : Object τ κ ρ → Prop
  | call (t : τ) (c : κ) (idle : a.status t = .idle) :
      Move a ⟨a.committed, Function.update a.status t (.called c), a.log ++ [.called t c]⟩
  | commit (t : τ) (c : κ) (called : a.status t = .called c) :
      Move a ⟨a.committed ++ [c], Function.update a.status t (.done c (answer a.committed c)), a.log⟩
  | ret (t : τ) (c : κ) (r : ρ) (done : a.status t = .done c r) :
      Move a ⟨a.committed, Function.update a.status t .idle, a.log ++ [.returned t c r]⟩

variable {answer} {a b : Object τ κ ρ}

theorem Object.move_of_next {l : Label τ κ} (h : a.next answer l = some b) : a.Move answer b := by
  cases l with
  | call t c =>
      cases hs : a.status t <;> simp only [Object.next, hs, reduceCtorEq] at h
      cases h
      exact .call t c hs
  | commit t =>
      cases hs : a.status t <;> simp only [Object.next, hs, reduceCtorEq] at h
      cases h
      exact .commit t _ hs
  | ret t =>
      cases hs : a.status t <;> simp only [Object.next, hs, reduceCtorEq] at h
      cases h
      exact .ret t _ _ hs

/-- The states the object can be in. -/
abbrev Reachable (answer : List κ → κ → ρ) (a : Object τ κ ρ) : Prop :=
  (object answer).Reachable (fun _ _ => True) a

/-- Between `a` and `b` the call `c` took effect and was answered `r`. -/
def Effected (answer : List κ → κ → ρ) (a b : Object τ κ ρ) (c : κ) (r : ρ) : Prop :=
  ∃ cs, a.committed ++ cs ++ [c] <+: b.committed ∧ r = answer (a.committed ++ cs) c

/-- With the marks `l` made since `a`: thread `t` called after `a`, or was in no call then. -/
def Since (a : Object τ κ ρ) (l : List (Mark τ κ ρ)) (t : τ) : Prop :=
  a.status t = .idle ∨ ∃ c, .called t c ∈ l

/-- From `a` to `b` with the marks `l`: a call made since `a` took effect since `a`. -/
structure Later (answer : List κ → κ → ρ) (a : Object τ κ ρ) (l : List (Mark τ κ ρ)) (b : Object τ κ ρ) : Prop where
  committed : a.committed <+: b.committed
  log : b.log = a.log ++ l
  done : ∀ t c r, b.status t = .done c r → Since a l t → Effected answer a b c r
  returned : ∀ l₁ t c r l₂, l = l₁ ++ .returned t c r :: l₂ → Since a l₁ t → Effected answer a b c r

theorem eq_of_concat_eq {α : Type*} {l l₁ l₂ : List α} {x y : α} (h : l ++ [y] = l₁ ++ x :: l₂) :
    (y = x ∧ l = l₁) ∨ ∃ l₂', l = l₁ ++ x :: l₂' := by
  rcases l₂.eq_nil_or_concat with rfl | ⟨l₂', z, rfl⟩
  · obtain ⟨hl, hy⟩ := List.append_inj' h rfl
    exact Or.inl ⟨List.singleton_inj.mp hy, hl⟩
  · rw [List.concat_eq_append, ← List.cons_append, ← List.append_assoc] at h
    exact Or.inr ⟨l₂', (List.append_inj' h rfl).1⟩

section Later

variable {l : List (Mark τ κ ρ)} {c : κ} {r : ρ} {t u : τ}

omit [DecidableEq τ]

theorem Effected.mono {b' : Object τ κ ρ} (h : Effected answer a b c r) (hb : b.committed <+: b'.committed) :
    Effected answer a b' c r := by
  obtain ⟨cs, hcs, hr⟩ := h
  exact ⟨cs, hcs.trans hb, hr⟩

theorem Since.of_concat (h : Since a (l ++ [.called t c]) u) (hu : u ≠ t) : Since a l u := by
  apply h.imp_right
  rintro ⟨c', hc'⟩
  exact ⟨c', by simpa [hu] using hc'⟩

theorem Later.refl (a : Object τ κ ρ) : Later answer a [] a where
  committed := List.prefix_rfl
  log := (List.append_nil _).symm
  done t c r hdone hsince := by
    obtain hidle | ⟨_, hmem⟩ := hsince
    · rw [hidle] at hdone
      cases hdone
    · cases hmem
  returned l₁ t c r l₂ h := by simp at h

end Later

/-- One step more. -/
theorem Later.move {l : List (Mark τ κ ρ)} {b' : Object τ κ ρ} (h : Later answer a l b) (hmove : b.Move answer b') :
    ∃ l', Later answer a l' b' := by
  cases hmove with
  | call t c idle =>
      refine ⟨l ++ [.called t c], h.committed, by rw [h.log, List.append_assoc], fun u c' r hu hsince => ?_,
        fun l₁ u c' r l₂ hl hsince => ?_⟩
      · by_cases hut : u = t
        · subst hut
          simp at hu
        · exact h.done u c' r (by simpa [Function.update_of_ne hut] using hu) (hsince.of_concat hut)
      · obtain ⟨hmark, -⟩ | ⟨l₂', hl⟩ := eq_of_concat_eq hl
        · cases hmark
        · exact h.returned l₁ u c' r l₂' hl hsince
  | commit t c called =>
      have hprefix : b.committed <+: b.committed ++ [c] := List.prefix_append ..
      refine ⟨l, h.committed.trans hprefix, h.log, fun u c' r hu hsince => ?_,
        fun l₁ u c' r l₂ hl hsince => (h.returned l₁ u c' r l₂ hl hsince).mono hprefix⟩
      by_cases hut : u = t
      · subst hut
        obtain ⟨cs, hcs⟩ := h.committed
        obtain ⟨rfl, rfl⟩ : c = c' ∧ answer b.committed c = r := by simpa using hu
        exact ⟨cs, hcs ▸ List.prefix_rfl, hcs ▸ rfl⟩
      · exact (h.done u c' r (by simpa [Function.update_of_ne hut] using hu) hsince).mono hprefix
  | ret t c r done =>
      refine ⟨l ++ [.returned t c r], h.committed, by rw [h.log, List.append_assoc], fun u c' r' hu hsince => ?_,
        fun l₁ u c' r' l₂ hl hsince => ?_⟩
      · by_cases hut : u = t
        · subst hut
          simp at hu
        · refine h.done u c' r' (by simpa [Function.update_of_ne hut] using hu) (hsince.imp_right fun hmem => ?_)
          obtain ⟨c'', hc''⟩ := hmem
          exact ⟨c'', by simpa using hc''⟩
      · obtain ⟨hmark, rfl⟩ | ⟨l₂', hl⟩ := eq_of_concat_eq hl
        · cases hmark
          exact h.done t c r done hsince
        · exact h.returned l₁ u c' r' l₂' hl hsince

/-- A run: whoever calls in the course of it is answered as after all that had taken effect before it. -/
theorem later_of_run {es : List (Label τ κ)} (h : (object answer).Run (fun _ _ => True) a es b) :
    ∃ l, Later answer a l b := by
  induction h with
  | nil => exact ⟨[], Later.refl a⟩
  | snoc _ _ step ih =>
      obtain ⟨l, hlater⟩ := ih
      exact hlater.move (Object.move_of_next step)

/-- What returned took effect before. -/
theorem effected_of_returned (h : Reachable answer a) {t : τ} {c : κ} {r : ρ} (hmem : .returned t c r ∈ a.log) :
    ∃ cs, cs ++ [c] <+: a.committed ∧ r = answer cs c := by
  obtain ⟨s₀, es, rfl, hrun⟩ := h
  obtain ⟨l, hlater⟩ := later_of_run hrun
  obtain ⟨l₁, l₂, hl⟩ := List.append_of_mem (hlater.log ▸ hmem : _ ∈ l)
  exact hlater.returned l₁ t c r l₂ hl (Or.inl rfl)

/-- The object once was where its history had come to `l`. -/
theorem exists_reachable_of_prefix (h : Reachable answer a) {l : List (Mark τ κ ρ)} (hl : l <+: a.log) :
    ∃ b es, Reachable answer b ∧ b.log = l ∧ (object answer).Run (fun _ _ => True) b es a := by
  obtain ⟨s₀, es, hstart, hrun⟩ := h
  induction hrun with
  | nil =>
      obtain rfl := hstart
      exact ⟨_, [], .start rfl, (List.prefix_nil.mp hl).symm, .nil _⟩
  | @snoc b c es e run admitted step ih =>
      by_cases hb : l <+: b.log
      · obtain ⟨b', es', hreach, hlog, hrun'⟩ := ih hb
        exact ⟨b', es' ++ [e], hreach, hlog, hrun'.snoc admitted step⟩
      · refine ⟨c, [], ⟨_, _, hstart, run.snoc admitted step⟩, ?_, .nil _⟩
        have hone : ∀ m, l <+: b.log ++ [m] → b.log ++ [m] = l := fun m hm =>
          ((List.prefix_concat_iff.mp hm).resolve_right hb).symm
        cases Object.move_of_next step with
        | commit => exact absurd hl hb
        | call | ret => exact hone _ hl

end Atomic
