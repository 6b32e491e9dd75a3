import Mathlib.Tactic

/-!
# Readers-writer locks

A lock that one writer or any number of readers hold. What the threads know is which of them hold it and
how; a lock that agrees with them has a writer alone or readers only, and refuses a thread for no other
reason than that one of them holds it.
-/

namespace Locking

universe u

inductive Mode where
  | read
  | write
  deriving DecidableEq

structure RwLock (τ : Type u) where
  writer : Option τ
  readers : List τ

variable {τ : Type u}

namespace RwLock

def free : RwLock τ := ⟨none, []⟩

/-- Take the lock, where it can be taken at once. -/
def lock (l : RwLock τ) (m : Mode) (t : τ) : Option (RwLock τ) :=
  match m with
  | .read => if l.writer.isNone then some { l with readers := t :: l.readers } else none
  | .write => if l.writer.isNone ∧ l.readers.isEmpty then some { l with writer := some t } else none

/-- Give it back; a thread that does not hold it may not. -/
def unlock [DecidableEq τ] (l : RwLock τ) (t : τ) : Option (RwLock τ) :=
  if l.writer = some t then some { l with writer := none }
  else if t ∈ l.readers then some { l with readers := l.readers.erase t }
  else none

/-- The lock is held as `hold` says, and never by a writer and anyone else. -/
structure Guards (l : RwLock τ) (hold : τ → Option Mode) : Prop where
  writer : ∀ t, l.writer = some t ↔ hold t = some .write
  reader : ∀ t, t ∈ l.readers ↔ hold t = some .read
  nodup : l.readers.Nodup
  exclusive : l.writer = none ∨ l.readers = []

variable {l l' : RwLock τ} {hold : τ → Option Mode} {t u : τ} {m m' : Mode}

theorem guards_free : (free : RwLock τ).Guards fun _ => none :=
  ⟨by simp [free], by simp [free], List.nodup_nil, Or.inl rfl⟩

theorem Guards.alone (h : l.Guards hold) (ht : hold t = some .write) (hu : hold u = some m) : u = t := by
  have hwriter := (h.writer t).mpr ht
  cases m with
  | write => exact Option.some.inj (((h.writer u).mpr hu).symm.trans hwriter)
  | read =>
      have hreader := (h.reader u).mpr hu
      rcases h.exclusive with hnone | hnil
      · exact absurd (hnone.symm.trans hwriter).symm (Option.some_ne_none t)
      · exact absurd (hnil ▸ hreader) List.not_mem_nil

/-- Whoever has to wait waits for a holder. -/
theorem Guards.exists_holder (h : l.Guards hold) (hlock : l.lock m t = none) : ∃ u m', hold u = some m' := by
  have hcase : (∃ u, l.writer = some u) ∨ ∃ u, u ∈ l.readers := by
    by_contra hfree
    push Not at hfree
    obtain ⟨hwriter, hreaders⟩ := hfree
    have hwriter : l.writer = none := Option.eq_none_iff_forall_ne_some.mpr hwriter
    have hreaders : l.readers = [] := List.eq_nil_iff_forall_not_mem.mpr hreaders
    cases m <;> simp [lock, hwriter, hreaders] at hlock
  rcases hcase with ⟨u, hu⟩ | ⟨u, hu⟩
  · exact ⟨u, .write, (h.writer u).mp hu⟩
  · exact ⟨u, .read, (h.reader u).mp hu⟩

variable [DecidableEq τ]

theorem Guards.lock (h : l.Guards hold) (ht : hold t = none) (hlock : l.lock m t = some l') :
    l'.Guards (Function.update hold t (some m)) := by
  cases m with
  | read =>
      obtain ⟨hwriter, hlock⟩ := Option.ite_none_right_eq_some.mp hlock
      cases hlock
      have hnone : l.writer = none := Option.isNone_iff_eq_none.mp hwriter
      have hnotin : t ∉ l.readers := by
        rw [h.reader, ht]
        exact Option.some_ne_none _ ∘ Eq.symm
      refine ⟨fun u => ?_, fun u => ?_, h.nodup.cons hnotin, Or.inl hnone⟩
      · by_cases hu : u = t
        · subst hu
          simp [hnone]
        · rw [Function.update_of_ne hu, ← h.writer]
      · by_cases hu : u = t
        · subst hu
          simp
        · rw [Function.update_of_ne hu, ← h.reader, List.mem_cons, or_iff_right hu]
  | write =>
      obtain ⟨⟨hwriter, hreaders⟩, hlock⟩ := Option.ite_none_right_eq_some.mp hlock
      cases hlock
      have hnone : l.writer = none := Option.isNone_iff_eq_none.mp hwriter
      have hnil : l.readers = [] := List.isEmpty_iff.mp hreaders
      refine ⟨fun u => ?_, fun u => ?_, h.nodup, Or.inr hnil⟩
      · by_cases hu : u = t
        · subst hu
          simp
        · rw [Function.update_of_ne hu, ← h.writer, hnone]
          simp [Ne.symm hu]
      · by_cases hu : u = t
        · subst hu
          simp [hnil]
        · rw [Function.update_of_ne hu, ← h.reader]

theorem Guards.unlock (h : l.Guards hold) (ht : hold t = some m) :
    ∃ l', l.unlock t = some l' ∧ l'.Guards (Function.update hold t none) := by
  cases m with
  | write =>
      have hwriter := (h.writer t).mpr ht
      have hnil : l.readers = [] := h.exclusive.resolve_left fun hnone => by
        rw [hnone] at hwriter
        cases hwriter
      refine ⟨{ l with writer := none }, if_pos hwriter, fun u => ?_, fun u => ?_, h.nodup, Or.inl rfl⟩
      · by_cases hu : u = t
        · subst hu
          simp
        · rw [Function.update_of_ne hu, ← h.writer, hwriter]
          simp [Ne.symm hu]
      · by_cases hu : u = t
        · subst hu
          simp [hnil]
        · rw [Function.update_of_ne hu, ← h.reader]
  | read =>
      have hreader := (h.reader t).mpr ht
      have hnone : l.writer = none := h.exclusive.resolve_right fun hnil => by
        rw [hnil] at hreader
        cases hreader
      refine ⟨{ l with readers := l.readers.erase t }, ?_, fun u => ?_, fun u => ?_, h.nodup.erase t, Or.inl hnone⟩
      · rw [RwLock.unlock, if_neg (by simp [hnone]), if_pos hreader]
      · by_cases hu : u = t
        · subst hu
          simp [hnone]
        · rw [Function.update_of_ne hu, ← h.writer]
      · by_cases hu : u = t
        · subst hu
          simp [h.nodup.mem_erase_iff]
        · rw [Function.update_of_ne hu, ← h.reader, List.mem_erase_of_ne hu]

end RwLock

end Locking
