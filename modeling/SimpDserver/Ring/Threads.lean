import SimpDserver.Ring.Code

/-!
# Any number of threads on one ring, and what an observer notes

A scheduler picks which thread makes its next access, and an idle thread may call `enqueue` or
`dequeue` at any time. Beside the threads an observer keeps a history of the events. It is what the
statements about the ring are written in, since the counters wrap and a slot does not say who filled it.
Nothing a thread does reads the history.
-/

namespace SimpDserver.NetRing

open Transition

variable {τ α : Type}

/-- The observer's notes. A stored item goes by its ticket, the number of reservations made before
its producer's own; `occupant` is the ticket last stored in a slot, `source` the one a thread's last
fetch read. -/
structure History (τ α : Type) where
  -- the items whose producers won the compare-and-set, in that order
  reserved : List α
  -- how often `prod.tail`, `cons.head` and `cons.tail` were moved
  published : Nat
  taken : Nat
  released : Nat
  -- the number a thread's last successful compare-and-set got
  ticket : τ → Nat
  -- how often the thread's own head had been moved when it last loaded it
  headSeen : τ → Nat
  -- how often `prod.tail` had been moved when the thread last loaded it in `dequeue`
  tailSeen : τ → Nat
  -- the slots reserved and unreleased when the thread last loaded `prod.head` in `enqueue`
  inUseSeen : τ → Nat
  -- the items published and untaken when the thread last loaded `prod.tail` in `dequeue`
  waitingSeen : τ → Nat
  occupant : Word → Option Nat
  source : τ → Option Nat
  -- the tickets of the enqueues that returned `0`
  stored : List Nat
  -- whose item, and which pointer, each dequeue that returned `0` delivered
  delivered : List (Option Nat × Option α)
  -- the items overwritten in their slot before any dequeue delivered them
  lost : List Nat
  -- for each enqueue that returned `-1`: `inUseSeen`, and the reservations made since then
  refused : List (Nat × Nat)
  -- for each dequeue that returned `-1`: `waitingSeen`
  missed : List Nat

namespace History

def empty : History τ α where
  reserved := []
  published := 0
  taken := 0
  released := 0
  ticket := fun _ => 0
  headSeen := fun _ => 0
  tailSeen := fun _ => 0
  inUseSeen := fun _ => 0
  waitingSeen := fun _ => 0
  occupant := fun _ => none
  source := fun _ => none
  stored := []
  delivered := []
  lost := []
  refused := []
  missed := []

/-- The item in a slot, if some store put one there and no dequeue delivered it yet. -/
def undelivered (h : History τ α) (slot : Word) : Option Nat :=
  (h.occupant slot).filter fun n => n ∉ h.delivered.filterMap Prod.fst

variable [DecidableEq τ]

/-- What the observer adds when thread `t` makes an access. -/
def note (h : History τ α) (t : τ) : Event α → History τ α
  | .enqSawHead =>
      { h with
        headSeen := Function.update h.headSeen t h.reserved.length
        inUseSeen := Function.update h.inUseSeen t (h.reserved.length - h.released) }
  | .enqFull =>
      { h with refused := h.refused ++ [(h.inUseSeen t, h.reserved.length - h.headSeen t)] }
  | .enqReserved item =>
      { h with
        ticket := Function.update h.ticket t h.reserved.length
        reserved := h.reserved ++ [item] }
  | .enqStored slot =>
      { h with
        lost := h.lost ++ (h.undelivered slot).toList
        occupant := Function.update h.occupant slot (some (h.ticket t)) }
  | .enqPublished => { h with published := h.published + 1, stored := h.stored ++ [h.ticket t] }
  | .deqSawTail =>
      { h with
        tailSeen := Function.update h.tailSeen t h.published
        waitingSeen := Function.update h.waitingSeen t (h.published - h.taken) }
  | .deqEmpty => { h with missed := h.missed ++ [h.waitingSeen t] }
  | .deqAdmitted => { h with headSeen := Function.update h.headSeen t h.taken }
  | .deqTaken =>
      { h with ticket := Function.update h.ticket t h.taken, taken := h.taken + 1 }
  | .deqFetched slot => { h with source := Function.update h.source t (h.occupant slot) }
  | .deqReleased item =>
      { h with released := h.released + 1, delivered := h.delivered ++ [(h.source t, item)] }
  | .enqAdmitted | .enqRetry | .enqWaits | .enqTurn | .deqRetry | .deqWaits | .deqTurn => h

end History

variable [DecidableEq τ]

/-- One access or one call, with the event it shows. -/
def State.step (s : State τ α) : Label τ α → Option (State τ α × Option (Event α))
  | .callEnqueue t item =>
      match s.pcs t with
      | .idle => some ({ s with pcs := Function.update s.pcs t (.enqLoadHead item) }, none)
      | _ => none
  | .callDequeue t =>
      match s.pcs t with
      | .idle => some ({ s with pcs := Function.update s.pcs t .deqLoadTail }, none)
      | _ => none
  | .run t =>
      match (s.pcs t).step s.ring with
      | some (ring, pc, event) => some (⟨ring, Function.update s.pcs t pc⟩, some event)
      | none => none

/-- The threads on their ring, and the observer. -/
structure System (τ α : Type) extends State τ α where
  history : History τ α

def Label.thread : Label τ α → τ
  | .callEnqueue t _ | .callDequeue t | .run t => t

def System.next (y : System τ α) (l : Label τ α) : Option (System τ α) :=
  match y.toState.step l with
  | some (s, some event) => some ⟨s, y.history.note l.thread event⟩
  | some (s, none) => some ⟨s, y.history⟩
  | none => none

/-- All threads idle on a fresh ring. -/
def System.fresh (ring : Ring α) : System τ α := ⟨⟨ring, fun _ => .idle⟩, .empty⟩

/-- The machine: it starts on any ring `create` can return. -/
def machine (τ α : Type) [DecidableEq τ] : Machine (System τ α) (Label τ α) where
  start y := ∃ malloc junk fuel nem ring, create malloc junk fuel nem = some ring ∧ y = .fresh ring
  next := System.next

/-- The step does not let a compare-and-set run after `2 ^ 32` or more successful ones of the same
head since its thread loaded that head. -/
def NotOvertaken (y : System τ α) : Label τ α → Prop
  | .run t =>
      match y.pcs t with
      | .enqCmpset _ _ => y.history.reserved.length - y.history.headSeen t < 2 ^ 32
      | .deqCmpset _ => y.history.taken - y.history.headSeen t < 2 ^ 32
      | _ => True
  | _ => True

instance (y : System τ α) : (l : Label τ α) → Decidable (NotOvertaken y l)
  | .callEnqueue .. | .callDequeue _ => .isTrue trivial
  | .run t => by
      dsimp only [NotOvertaken]
      generalize y.pcs t = p
      induction p using Pc.casesOn <;> dsimp only <;> infer_instance

end SimpDserver.NetRing
