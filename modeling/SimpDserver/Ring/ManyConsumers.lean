import SimpDserver.Ring.Create

/-!
# Any number of producers and consumers

`dequeue` loads `prod.tail` before `cons.head`. When other consumers pass that tail in between, the
unsigned difference of the two is not zero though the ring may be empty, and the consumer takes an
item nobody stored. In the runs where that does not happen the ring is safe.
-/

namespace SimpDserver.NetRing

open Transition

variable {τ α : Type}

/-- What the ring promises its users: `cons.head` stays behind `prod.tail`, a dequeue that returns
`0` delivers the pointer some enqueue stored, none is delivered twice and none overwritten before it
was delivered. -/
structure Safe (y : System τ α) : Prop where
  counters : y.ring.cons.head = BitVec.ofNat 32 y.history.taken ∧
    y.ring.prod.tail = BitVec.ofNat 32 y.history.published
  not_passed : y.history.taken ≤ y.history.published
  from_store : ∀ d ∈ y.history.delivered, ∃ n item, d = (some n, some item) ∧
    y.history.reserved[n]? = some item
  once : (y.history.delivered.map Prod.fst).Nodup
  kept : y.history.lost = []

theorem Sound.safe {k : Nat} {y : System τ α} (h : Sound k y) : Safe y where
  counters := ⟨h.tickets.consHead, h.tickets.prodTail⟩
  not_passed := h.taken_le
  from_store := by
    intro d hd
    rw [h.delivered, List.mem_map] at hd
    obtain ⟨n, hn, rfl⟩ := hd
    have hlt : n < y.history.reserved.length :=
      lt_of_lt_of_le (List.mem_range.mp hn) (h.released_le.trans (h.taken_le.trans h.published_le))
    exact ⟨n, _, by rw [List.getElem?_eq_getElem hlt], List.getElem?_eq_getElem hlt⟩
  once := by
    rw [h.delivered, List.map_map]
    exact List.nodup_range.map fun a b hab => by simpa using hab
  kept := h.lost

/-- In every run whose emptiness tests use a `prod.tail` not yet passed, every reached state is
safe, for any number of threads. -/
theorem safe_of_fresh_tails [DecidableEq τ] {y : System τ α}
    (h : (machine τ α).Reachable (fun y l => NotOvertaken y l ∧ FreshTail y l) y) : Safe y := by
  obtain ⟨k, -, -, hsound⟩ := sound_of_reachable h
  exact hsound.safe

instance (y : System τ α) : (l : Label τ α) → Decidable (FreshTail y l)
  | .callEnqueue .. | .callDequeue _ => .isTrue trivial
  | .run t => by
      dsimp only [FreshTail]
      generalize y.pcs t = p
      induction p using Pc.casesOn <;> dsimp only <;> infer_instance

/-- The ring `create` returns for no elements: two slots. -/
def pairRing : Ring Nat := (create (fun _ => true) (fun _ => none) 1 0).get (by decide)

theorem pairRing_start : (machine Nat Nat).start (.fresh pairRing) :=
  ⟨_, _, _, _, _, (Option.some_get _).symm, rfl⟩

/-- A call of thread `t` from its entry to its return, undisturbed. -/
def enqueueAlone (t item : Nat) : List (Label Nat Nat) := .callEnqueue t item :: List.replicate 6 (.run t)

def dequeueAlone (t : Nat) : List (Label Nat Nat) := .callDequeue t :: List.replicate 6 (.run t)

/-- Two producers and two consumers in turn. -/
theorem safe_of_fresh_tails_pair :
    ∃ y : System Nat Nat, Safe y ∧ y.history.delivered = [(some 0, some 7), (some 1, some 8)] := by
  have hrun : ((machine Nat Nat).replay (fun y l => NotOvertaken y l ∧ FreshTail y l) (.fresh pairRing)
      (enqueueAlone 0 7 ++ dequeueAlone 2 ++ enqueueAlone 1 8 ++ dequeueAlone 3)).map
      (fun y => y.history.delivered) = some [(some 0, some 7), (some 1, some 8)] := by decide
  obtain ⟨y, hreach, hdelivered⟩ := Machine.Reachable.of_replay pairRing_start _ hrun
  exact ⟨y, safe_of_fresh_tails hreach, hdelivered⟩

/-- Thread 1 loads `prod.tail` of the empty ring; an item passes through the ring by threads 0 and 2;
thread 1 then loads `cons.head`, finds the two different, takes a reservation nobody made and
delivers a null pointer nobody stored. -/
theorem stale_tail_not_safe :
    ¬ ∀ y : System Nat Nat, (machine Nat Nat).Reachable NotOvertaken y → Safe y := by
  have hrun : ((machine Nat Nat).replay NotOvertaken (.fresh pairRing)
      ([.callDequeue 1, .run 1] ++ enqueueAlone 0 7 ++ dequeueAlone 2 ++ List.replicate 5 (.run 1))).map
      (fun y => (y.history.published, y.history.taken, y.history.delivered))
      = some (1, 2, [(some 0, some 7), (none, none)]) := by decide
  intro hall
  obtain ⟨y, hreach, hcounts⟩ := Machine.Reachable.of_replay pairRing_start _ hrun
  have hpassed := (hall y hreach).not_passed
  simp only [Prod.mk.injEq] at hcounts
  omega

end SimpDserver.NetRing
