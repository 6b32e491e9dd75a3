import SimpDserver.Ring.OneConsumer
import SimpDserver.Ring.Publication

/-!
# The queue seen in the ring

With one consumer the ring is a queue of the items reserved and not yet handed out. It grows in the one
access that wins a producer's compare-and-set, long before the item is in its slot, and shrinks in the
one that ends a call of the consumer, which gets the oldest item of it. No other access changes it.
-/

namespace SimpDserver.NetRing

open Transition

variable {τ α : Type}

/-- The items reserved and not handed out, the oldest first. -/
def System.queue (y : System τ α) : List α := y.history.reserved.drop y.history.released

/-- A thread that has won a producer's compare-and-set and not returned yet. -/
def Pc.past : Pc α → Bool
  | .enqStore _ _ | .enqWait _ _ | .enqPublish _ _ => true
  | _ => false

/-- A thread inside `enqueue` with an item that `E` allows, or inside `dequeue` when `D` does. -/
def Pc.Obeys (E : α → Bool) (D : Bool) : Pc α → Prop
  | .idle => True
  | .enqLoadHead item | .enqLoadTail item _ | .enqCmpset item _ | .enqStore item _ | .enqWait item _
  | .enqPublish item _ => E item = true
  | .deqLoadTail | .deqLoadHead _ | .deqCmpset _ | .deqFetch _ | .deqWait _ _ | .deqPublish _ _ => D = true

theorem Access.obeys {r r' : Ring α} {p p' : Pc α} {e : Event α} {E : α → Bool} {D : Bool}
    (access : Access r p r' p' e) (h : p.Obeys E D) : p'.Obeys E D := by
  cases access <;> first | exact h | trivial

theorem Pc.Obeys.called {E : α → Bool} {D : Bool} {p : Pc α} (h : p.Obeys E D) (hp : p ≠ .idle) :
    D = true ∨ ∃ item, E item = true := by
  cases p with
  | idle => exact absurd rfl hp
  | enqLoadHead item | enqLoadTail item _ | enqCmpset item _ | enqStore item _ | enqWait item _ | enqPublish item _ =>
      exact Or.inr ⟨item, h⟩
  | _ => exact Or.inl h

variable [DecidableEq τ]

/-- The event an access shows; a call shows none. -/
def System.shows (y : System τ α) (l : Label τ α) : Option (Event α) := (y.toState.step l).bind Prod.snd

/-- A label is a call by an idle thread or an access. -/
theorem next_cases {y y' : System τ α} {l : Label τ α} (h : y.next l = some y') :
    (∃ t item, l = .callEnqueue t item ∧ y.pcs t = .idle ∧ y.shows l = none ∧ y' = y.call t (.enqLoadHead item)) ∨
    (∃ t, l = .callDequeue t ∧ y.pcs t = .idle ∧ y.shows l = none ∧ y' = y.call t .deqLoadTail) ∨
    ∃ t r p e, l = .run t ∧ Access y.ring (y.pcs t) r p e ∧ y.shows l = some e ∧ y' = y.after t r p e := by
  cases move_of_next h with
  | callEnqueue t item idle =>
      exact Or.inl ⟨t, item, rfl, idle, by simp [System.shows, State.step, idle], rfl⟩
  | callDequeue t idle => exact Or.inr (Or.inl ⟨t, rfl, idle, by simp [System.shows, State.step, idle], rfl⟩)
  | @run t r p e access =>
      exact Or.inr (Or.inr ⟨t, r, p, e, rfl, access, by simp [System.shows, State.step, access.step], rfl⟩)

variable {k : Nat} {y : System τ α}

omit [DecidableEq τ] in
theorem Sound.released_le_reserved (h : Sound k y) : y.history.released ≤ y.history.reserved.length :=
  h.released_le.trans (h.taken_le.trans h.published_le)

theorem Sound.queue_reserved (h : Sound k y) {t : τ} {r : Ring α} {p : Pc α} (item : α) :
    (y.after t r p (.enqReserved item)).queue = y.queue ++ [item] :=
  List.drop_append_of_le_length h.released_le_reserved

omit [DecidableEq τ] in
/-- What the consumer is about to return is the head of the queue. -/
theorem Sound.queue_head (h : Sound k y) {t : τ} {w : Word} {item : Option α} (hpc : y.pcs t = .deqPublish w item) :
    ∃ x, item = some x ∧ y.queue = x :: y.history.reserved.drop (y.history.released + 1) := by
  have hticket := h.tickets.threads t
  have hreg := h.regs t
  rw [hpc] at hticket hreg
  obtain ⟨-, x, rfl, hx⟩ := hreg
  rw [hticket.2] at hx
  obtain ⟨hlt, hx⟩ := List.getElem?_eq_some_iff.mp hx
  exact ⟨x, rfl, by rw [System.queue, List.drop_eq_getElem_cons hlt, hx]⟩

theorem Sound.queue_released (h : Sound k y) {t : τ} {r : Ring α} {p : Pc α} {w : Word} {item : Option α}
    (hpc : y.pcs t = .deqPublish w item) :
    ∃ x, item = some x ∧ y.queue = x :: (y.after t r p (.deqReleased item)).queue :=
  h.queue_head hpc

/-- The events at which the queue changes. -/
def Event.moves : Event α → Bool
  | .enqReserved _ | .deqReleased _ => true
  | _ => false

theorem queue_after {t : τ} {r : Ring α} {p : Pc α} {e : Event α} (he : e.moves = false) :
    (y.after t r p e).queue = y.queue := by
  cases e <;> first | rfl | cases he

theorem queue_call (t : τ) (p : Pc α) : (y.call t p).queue = y.queue := rfl

/-! ### One producer -/

def OnlyProducer (p : τ) : Label τ α → Prop
  | .callEnqueue t _ => t = p
  | _ => True

/-- Thread `p` is the only producer, and nothing was reserved since it loaded `prod.head`. -/
structure Lone (p : τ) (y : System τ α) : Prop where
  only : ∀ t, (y.pcs t).inCall .producers → t = p
  fresh : ∀ item w, y.pcs p = .enqLoadTail item w ∨ y.pcs p = .enqCmpset item w →
    y.history.headSeen p = y.history.reserved.length

omit [DecidableEq τ] in
theorem Lone.not_overtaken {p : τ} (h : Lone p y) (l : Label τ α) : ProducerNotOvertaken y l := by
  cases l with
  | callEnqueue | callDequeue => trivial
  | run t =>
      cases hpc : y.pcs t with
      | enqCmpset item w =>
          obtain rfl := h.only t (by rw [hpc]; trivial)
          have := h.fresh item w (Or.inr hpc)
          simp [ProducerNotOvertaken, hpc, this]
      | _ => simp [ProducerNotOvertaken, hpc]

theorem Lone.next {p : τ} {y' : System τ α} {l : Label τ α} (h : Lone p y) (honly : OnlyProducer p l)
    (hstep : y.next l = some y') : Lone p y' := by
  cases move_of_next hstep with
  | callEnqueue t item idle =>
      obtain rfl : t = p := honly
      refine ⟨fun u hu => ?_, by simp⟩
      by_cases hut : u = t
      · exact hut
      · exact h.only u (by simpa [System.call, Function.update_of_ne hut] using hu)
  | callDequeue t idle =>
      refine ⟨fun u hu => ?_, fun item w hpc => ?_⟩
      · by_cases hut : u = t
        · subst hut
          simp [System.call, Pc.inCall] at hu
        · exact h.only u (by simpa [System.call, Function.update_of_ne hut] using hu)
      · by_cases hpt : p = t
        · subst hpt
          simp [System.call] at hpc
        · exact h.fresh item w (by simpa [System.call, Function.update_of_ne hpt] using hpc)
  | @run t r pc e access =>
      have hstay : pc.inCall .producers → (y.pcs t).inCall .producers := by
        intro hpc
        generalize y.pcs t = q at access
        cases access <;> trivial
      refine ⟨fun u hu => ?_, fun item w hpc => ?_⟩
      · by_cases hut : u = t
        · subst hut
          rw [System.after_pcs_self] at hu
          exact h.only u (hstay hu)
        · exact h.only u (by simpa [System.after, Function.update_of_ne hut] using hu)
      · by_cases hpt : p = t
        · subst hpt
          rw [System.after_pcs_self] at hpc
          have hold := h.fresh
          generalize hq : y.pcs p = q at access
          cases access <;> simp_all [System.after, History.note]
        · -- another thread reserves nothing
          simp only [System.after, Function.update_of_ne hpt] at hpc
          have hsame := h.fresh item w hpc
          have hnot : ¬(y.pcs t).inCall .producers := fun hin => hpt (h.only t hin).symm
          generalize y.pcs t = q at access hnot
          cases access <;> first
            | exact absurd trivial hnot
            | simpa [System.after, History.note, Function.update_of_ne hpt] using hsame

omit [DecidableEq τ] in
theorem Lone.start {p : τ} (ring : Ring α) : Lone p (System.fresh ring : System τ α) :=
  ⟨fun _ h => h.elim, by simp [System.fresh]⟩

/-- One producer is never overtaken. -/
theorem not_overtaken_of_only_producer {p c : τ}
    (h : (machine τ α).Reachable (fun _ l => OnlyConsumer c l ∧ OnlyProducer p l) y) :
    (machine τ α).Reachable (fun y l => OnlyConsumer c l ∧ ProducerNotOvertaken y l) y := by
  apply h.weaken
  intro y l hreach _ hadmitted
  have hlone : Lone p y := by
    refine hreach.invariant (I := Lone p) ?_ fun y l y' hy admitted hstep => hy.next admitted.2 hstep
    intro y hstart
    obtain ⟨malloc, junk, fuel, nem, ring, -, rfl⟩ := hstart
    exact Lone.start ring
  exact ⟨hadmitted.1, hlone.not_overtaken l⟩

end SimpDserver.NetRing
