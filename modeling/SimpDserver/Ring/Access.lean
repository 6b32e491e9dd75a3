import SimpDserver.Ring.Threads

/-!
# What one access can do

`Pc.step` cuts the two functions into accesses, and `Access` lists them with the test each one
passed. Everything proved about threads on a ring goes by these cases.
-/

namespace SimpDserver.NetRing

open Transition

variable {τ α : Type}

/-- `Access r p r' p' e`: from `p` on ring `r`, the next access shows `e` and leaves `r'` and `p'`. -/
inductive Access (r : Ring α) : Pc α → Ring α → Pc α → Event α → Prop
  | enqSawHead (item : α) :
      Access r (.enqLoadHead item) r (.enqLoadTail item r.prod.head) .enqSawHead
  | enqFull (item : α) (w : Word) (full : r.cons.tail - w + r.prod.mask = 0) :
      Access r (.enqLoadTail item w) r .idle .enqFull
  | enqAdmitted (item : α) (w : Word) (room : r.cons.tail - w + r.prod.mask ≠ 0) :
      Access r (.enqLoadTail item w) r (.enqCmpset item w) .enqAdmitted
  | enqReserved (item : α) (w : Word) (same : r.prod.head = w) :
      Access r (.enqCmpset item w) { r with prod := { r.prod with head := w + 1 } }
        (.enqStore item w) (.enqReserved item)
  | enqRetry (item : α) (w : Word) (moved : r.prod.head ≠ w) :
      Access r (.enqCmpset item w) r (.enqLoadHead item) .enqRetry
  | enqStored (item : α) (w : Word) :
      Access r (.enqStore item w)
        { r with ring := Function.update r.ring (w &&& r.prod.mask) (some item) }
        (.enqWait item w) (.enqStored (w &&& r.prod.mask))
  | enqWaits (item : α) (w : Word) (wait : r.prod.tail ≠ w) :
      Access r (.enqWait item w) r (.enqWait item w) .enqWaits
  | enqTurn (item : α) (w : Word) (turn : r.prod.tail = w) :
      Access r (.enqWait item w) r (.enqPublish item w) .enqTurn
  | enqPublished (item : α) (w : Word) :
      Access r (.enqPublish item w) { r with prod := { r.prod with tail := w + 1 } } .idle .enqPublished
  | deqSawTail : Access r .deqLoadTail r (.deqLoadHead r.prod.tail) .deqSawTail
  | deqEmpty (w : Word) (empty : w - r.cons.head = 0) : Access r (.deqLoadHead w) r .idle .deqEmpty
  | deqAdmitted (w : Word) (busy : w - r.cons.head ≠ 0) :
      Access r (.deqLoadHead w) r (.deqCmpset r.cons.head) .deqAdmitted
  | deqTaken (w : Word) (same : r.cons.head = w) :
      Access r (.deqCmpset w) { r with cons := { r.cons with head := w + 1 } } (.deqFetch w) .deqTaken
  | deqRetry (w : Word) (moved : r.cons.head ≠ w) :
      Access r (.deqCmpset w) r .deqLoadTail .deqRetry
  | deqFetched (w : Word) :
      Access r (.deqFetch w) r (.deqWait w (r.ring (w &&& r.prod.mask)))
        (.deqFetched (w &&& r.prod.mask))
  | deqWaits (w : Word) (item : Option α) (wait : r.cons.tail ≠ w) :
      Access r (.deqWait w item) r (.deqWait w item) .deqWaits
  | deqTurn (w : Word) (item : Option α) (turn : r.cons.tail = w) :
      Access r (.deqWait w item) r (.deqPublish w item) .deqTurn
  | deqReleased (w : Word) (item : Option α) :
      Access r (.deqPublish w item) { r with cons := { r.cons with tail := w + 1 } } .idle
        (.deqReleased item)

private theorem le_zero_iff (w : Word) : w ≤ 0 ↔ w = 0 := by
  constructor
  · intro h
    bv_omega
  · rintro rfl
    exact BitVec.le_refl _

theorem access_of_step {r r' : Ring α} {p p' : Pc α} {e : Event α}
    (h : p.step r = some (r', p', e)) : Access r p r' p' e := by
  cases p with
  | idle => cases h
  | enqLoadHead item =>
      cases h
      exact .enqSawHead item
  | enqLoadTail item w =>
      simp only [Pc.step, le_zero_iff] at h
      split at h <;> cases h
      next full => exact .enqFull item w full
      next room => exact .enqAdmitted item w room
  | enqCmpset item w =>
      by_cases same : r.prod.head = w
      · simp only [Pc.step, atomic32Cmpset, if_pos same] at h
        cases h
        exact .enqReserved item w same
      · simp only [Pc.step, atomic32Cmpset, if_neg same] at h
        cases h
        exact .enqRetry item w same
  | enqStore item w =>
      cases h
      exact .enqStored item w
  | enqWait item w =>
      by_cases turn : r.prod.tail = w
      · rw [Pc.step, if_neg (not_not.mpr turn)] at h
        cases h
        exact .enqTurn item w turn
      · rw [Pc.step, if_pos turn] at h
        cases h
        exact .enqWaits item w turn
  | enqPublish item w =>
      cases h
      exact .enqPublished item w
  | deqLoadTail =>
      cases h
      exact .deqSawTail
  | deqLoadHead w =>
      simp only [Pc.step, le_zero_iff] at h
      split at h <;> cases h
      next empty => exact .deqEmpty w empty
      next busy => exact .deqAdmitted w busy
  | deqCmpset w =>
      by_cases same : r.cons.head = w
      · simp only [Pc.step, atomic32Cmpset, if_pos same] at h
        cases h
        exact .deqTaken w same
      · simp only [Pc.step, atomic32Cmpset, if_neg same] at h
        cases h
        exact .deqRetry w same
  | deqFetch w =>
      cases h
      exact .deqFetched w
  | deqWait w item =>
      by_cases turn : r.cons.tail = w
      · rw [Pc.step, if_neg (not_not.mpr turn)] at h
        cases h
        exact .deqTurn w item turn
      · rw [Pc.step, if_pos turn] at h
        cases h
        exact .deqWaits w item turn
  | deqPublish w item =>
      cases h
      exact .deqReleased w item

/-- Each of these is what `Pc.step` does. -/
theorem Access.step {r r' : Ring α} {p p' : Pc α} {e : Event α} (access : Access r p r' p' e) :
    p.step r = some (r', p', e) := by
  cases access with
  | enqFull item w full => rw [Pc.step, if_pos ((le_zero_iff _).mpr full)]
  | enqAdmitted item w room => rw [Pc.step, if_neg (mt (le_zero_iff _).mp room)]
  | enqReserved item w same => simp only [Pc.step, atomic32Cmpset, if_pos same]
  | enqRetry item w moved => simp only [Pc.step, atomic32Cmpset, if_neg moved]
  | enqWaits item w wait => rw [Pc.step, if_pos wait]
  | enqTurn item w turn => rw [Pc.step, if_neg (not_not.mpr turn)]
  | deqEmpty w empty => rw [Pc.step, if_pos ((le_zero_iff _).mpr empty)]
  | deqAdmitted w busy => rw [Pc.step, if_neg (mt (le_zero_iff _).mp busy)]
  | deqTaken w same => simp only [Pc.step, atomic32Cmpset, if_pos same]
  | deqRetry w moved => simp only [Pc.step, atomic32Cmpset, if_neg moved]
  | deqWaits w item wait => rw [Pc.step, if_pos wait]
  | deqTurn w item turn => rw [Pc.step, if_neg (not_not.mpr turn)]
  | _ => rfl

variable [DecidableEq τ]

/-- The system after thread `t` made an access. -/
def System.after (y : System τ α) (t : τ) (r : Ring α) (p : Pc α) (e : Event α) : System τ α :=
  ⟨⟨r, Function.update y.pcs t p⟩, y.history.note t e⟩

@[simp] theorem System.after_pcs_self (y : System τ α) (t : τ) (r : Ring α) (p : Pc α) (e : Event α) :
    (y.after t r p e).pcs t = p :=
  Function.update_self ..

/-- The system after thread `t` entered a call. -/
def System.call (y : System τ α) (t : τ) (p : Pc α) : System τ α :=
  ⟨⟨y.ring, Function.update y.pcs t p⟩, y.history⟩

@[simp] theorem System.call_pcs_self (y : System τ α) (t : τ) (p : Pc α) : (y.call t p).pcs t = p :=
  Function.update_self ..

theorem System.next_run {y : System τ α} {t : τ} {r : Ring α} {p : Pc α} {e : Event α}
    (h : (y.pcs t).step y.ring = some (r, p, e)) : y.next (.run t) = some (y.after t r p e) := by
  simp only [System.next, State.step, h]
  rfl

/-- What one label can do to the system: an idle thread enters a call, or a thread makes an access. -/
inductive Move (y : System τ α) : Label τ α → System τ α → Prop
  | callEnqueue (t : τ) (item : α) (idle : y.pcs t = .idle) :
      Move y (.callEnqueue t item) (y.call t (.enqLoadHead item))
  | callDequeue (t : τ) (idle : y.pcs t = .idle) : Move y (.callDequeue t) (y.call t .deqLoadTail)
  | run (t : τ) {r : Ring α} {p : Pc α} {e : Event α} (access : Access y.ring (y.pcs t) r p e) :
      Move y (.run t) (y.after t r p e)

theorem move_of_next {y y' : System τ α} {l : Label τ α} (h : y.next l = some y') : Move y l y' := by
  cases l with
  | callEnqueue t item =>
      cases hpc : y.pcs t <;> simp only [System.next, State.step, hpc, reduceCtorEq] at h
      cases h
      exact .callEnqueue t item hpc
  | callDequeue t =>
      cases hpc : y.pcs t <;> simp only [System.next, State.step, hpc, reduceCtorEq] at h
      cases h
      exact .callDequeue t hpc
  | run t =>
      simp only [System.next, State.step] at h
      cases hstep : (y.pcs t).step y.ring with
      | none => simp [hstep] at h
      | some next =>
          obtain ⟨r, p, e⟩ := next
          simp only [hstep, Option.some.injEq] at h
          cases h
          exact .run t (access_of_step hstep)

end SimpDserver.NetRing
