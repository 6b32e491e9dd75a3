import SimpDserver.Lib.TicketLine
import SimpDserver.Ring.Access

/-!
# Reservations and takings are two ticket lines

A producer that won its compare-and-set holds the counter value it moved `prod.head` from until it
stores `prod.tail`; a consumer does the same with `cons.head` and `cons.tail`. Each side is a ticket
line, whatever the other side does and however the emptiness and fullness tests came out. The four
words of the ring are the ends of the two lines modulo `2 ^ 32`.
-/

namespace SimpDserver.NetRing

open Transition

variable {τ α : Type}

/-- The counter value a producer has reserved and not yet published. -/
def Pc.reservedWord : Pc α → Option Word
  | .enqStore _ w | .enqWait _ w | .enqPublish _ w => some w
  | _ => none

/-- The counter value a consumer has taken and not yet released. -/
def Pc.takenWord : Pc α → Option Word
  | .deqFetch w | .deqWait w _ | .deqPublish w _ => some w
  | _ => none

namespace System

/-- The producers' line: reservations at its head, publications at its tail. -/
def prodLine (y : System τ α) : Ticket.Line τ :=
  ⟨y.history.reserved.length, y.history.published,
    fun t => (y.pcs t).reservedWord.map fun _ => y.history.ticket t⟩

/-- The consumers' line: takings at its head, releases at its tail. -/
def consLine (y : System τ α) : Ticket.Line τ :=
  ⟨y.history.taken, y.history.released, fun t => (y.pcs t).takenWord.map fun _ => y.history.ticket t⟩

end System

/-- The registers of thread `t` at `p` hold the ticket it drew, and a thread about to store its
side's tail is at its turn. -/
def TicketOk (h : History τ α) (t : τ) : Pc α → Prop
  | .enqStore _ w | .enqWait _ w | .deqFetch w | .deqWait w _ => w = BitVec.ofNat 32 (h.ticket t)
  | .enqPublish _ w => w = BitVec.ofNat 32 (h.ticket t) ∧ h.ticket t = h.published
  | .deqPublish w _ => w = BitVec.ofNat 32 (h.ticket t) ∧ h.ticket t = h.released
  | _ => True

/-- The wrapping counters and the threads' registers are those of two ordered ticket lines. -/
structure Tickets (y : System τ α) : Prop where
  prodOrdered : y.prodLine.Ordered
  consOrdered : y.consLine.Ordered
  prodHead : y.ring.prod.head = BitVec.ofNat 32 y.history.reserved.length
  prodTail : y.ring.prod.tail = BitVec.ofNat 32 y.history.published
  consHead : y.ring.cons.head = BitVec.ofNat 32 y.history.taken
  consTail : y.ring.cons.tail = BitVec.ofNat 32 y.history.released
  threads : ∀ t, TicketOk y.history t (y.pcs t)

/-- Fewer tickets than counter values are out on either side. -/
structure Fits (y : System τ α) : Prop where
  prod : y.history.reserved.length ≤ y.history.published + 2 ^ 32
  cons : y.history.taken ≤ y.history.released + 2 ^ 32

@[simp] theorem ofNat_add_one (n : Nat) : BitVec.ofNat 32 n + 1 = BitVec.ofNat 32 (n + 1) := by
  rw [BitVec.ofNat_add]
  rfl

theorem ofNat_eq_iff {a b : Nat} : BitVec.ofNat 32 a = BitVec.ofNat 32 b ↔ a % 2 ^ 32 = b % 2 ^ 32 := by
  rw [← BitVec.toNat_inj, BitVec.toNat_ofNat, BitVec.toNat_ofNat]

theorem Tickets.prod_turn {y : System τ α} (h : Tickets y) (hfit : Fits y) {t : τ} {item : α} {w : Word}
    (hpc : y.pcs t = .enqWait item w) (hturn : y.ring.prod.tail = w) :
    y.history.ticket t = y.history.published := by
  have hw : w = BitVec.ofNat 32 (y.history.ticket t) := by simpa [hpc, TicketOk] using h.threads t
  apply h.prodOrdered.eq_tail_of_mod hfit.prod (t := t)
  · simp [System.prodLine, hpc, Pc.reservedWord]
  · rw [hw, h.prodTail, ofNat_eq_iff] at hturn
    exact hturn.symm

theorem Tickets.cons_turn {y : System τ α} (h : Tickets y) (hfit : Fits y) {t : τ} {w : Word}
    {item : Option α} (hpc : y.pcs t = .deqWait w item) (hturn : y.ring.cons.tail = w) :
    y.history.ticket t = y.history.released := by
  have hw : w = BitVec.ofNat 32 (y.history.ticket t) := by simpa [hpc, TicketOk] using h.threads t
  apply h.consOrdered.eq_tail_of_mod hfit.cons (t := t)
  · simp [System.consLine, hpc, Pc.takenWord]
  · rw [hw, h.consTail, ofNat_eq_iff] at hturn
    exact hturn.symm

/-- At most one producer stands before its tail store. -/
theorem Tickets.one_publisher {y : System τ α} (h : Tickets y) {t u : τ} {item item' : α} {w w' : Word}
    (ht : y.pcs t = .enqPublish item w) (hu : y.pcs u = .enqPublish item' w') : u = t := by
  have hown := h.threads t
  have hother := h.threads u
  rw [ht] at hown
  rw [hu] at hother
  apply h.prodOrdered.unique (n := y.history.published)
  · simp [System.prodLine, hu, Pc.reservedWord, hother.2]
  · simp [System.prodLine, ht, Pc.reservedWord, hown.2]

theorem Tickets.one_releaser {y : System τ α} (h : Tickets y) {t u : τ} {item item' : Option α}
    {w w' : Word} (ht : y.pcs t = .deqPublish w item) (hu : y.pcs u = .deqPublish w' item') : u = t := by
  have hown := h.threads t
  have hother := h.threads u
  rw [ht] at hown
  rw [hu] at hother
  apply h.consOrdered.unique (n := y.history.released)
  · simp [System.consLine, hu, Pc.takenWord, hother.2]
  · simp [System.consLine, ht, Pc.takenWord, hown.2]

variable [DecidableEq τ]

/-- What an event of thread `t` does to the producers' line. -/
def Event.onProdLine (t : τ) (q : Ticket.Line τ) : Event α → Ticket.Line τ
  | .enqReserved _ => q.draw t
  | .enqPublished => q.serve t
  | _ => q

/-- What an event of thread `t` does to the consumers' line. -/
def Event.onConsLine (t : τ) (q : Ticket.Line τ) : Event α → Ticket.Line τ
  | .deqTaken => q.draw t
  | .deqReleased _ => q.serve t
  | _ => q

theorem prodLine_after {y : System τ α} {t : τ} {r : Ring α} {p : Pc α} {e : Event α}
    (access : Access y.ring (y.pcs t) r p e) :
    (y.after t r p e).prodLine = e.onProdLine t y.prodLine := by
  generalize hpc : y.pcs t = q at access
  cases access <;>
    simp only [System.prodLine, System.after, History.note, Event.onProdLine, Ticket.Line.draw,
      Ticket.Line.serve, List.length_append, List.length_singleton, Ticket.Line.mk.injEq, true_and] <;>
    funext u <;> by_cases hu : u = t <;>
    simp [hu, hpc, Pc.reservedWord, Function.update_of_ne]

theorem consLine_after {y : System τ α} {t : τ} {r : Ring α} {p : Pc α} {e : Event α}
    (access : Access y.ring (y.pcs t) r p e) :
    (y.after t r p e).consLine = e.onConsLine t y.consLine := by
  generalize hpc : y.pcs t = q at access
  cases access <;>
    simp only [System.consLine, System.after, History.note, Event.onConsLine, Ticket.Line.draw,
      Ticket.Line.serve, Ticket.Line.mk.injEq, true_and] <;>
    funext u <;> by_cases hu : u = t <;>
    simp [hu, hpc, Pc.takenWord, Function.update_of_ne]

theorem prodLine_call {y : System τ α} {t : τ} {p : Pc α} (idle : y.pcs t = .idle)
    (hp : p.reservedWord = none) : (y.call t p).prodLine = y.prodLine := by
  have hidle : (Pc.idle : Pc α).reservedWord = none := rfl
  simp only [System.prodLine, System.call, Ticket.Line.mk.injEq, true_and]
  funext u
  by_cases hu : u = t <;> simp [hu, idle, hp, hidle]

theorem consLine_call {y : System τ α} {t : τ} {p : Pc α} (idle : y.pcs t = .idle)
    (hp : p.takenWord = none) : (y.call t p).consLine = y.consLine := by
  have hidle : (Pc.idle : Pc α).takenWord = none := rfl
  simp only [System.consLine, System.call, Ticket.Line.mk.injEq, true_and]
  funext u
  by_cases hu : u = t <;> simp [hu, idle, hp, hidle]

/-- A call draws no ticket, so it leaves the lines and the counters alone. -/
theorem Tickets.call {y : System τ α} (h : Tickets y) {t : τ} {p : Pc α} (idle : y.pcs t = .idle)
    (hres : p.reservedWord = none) (htak : p.takenWord = none) : Tickets (y.call t p) where
  prodOrdered := by rw [prodLine_call idle hres]; exact h.prodOrdered
  consOrdered := by rw [consLine_call idle htak]; exact h.consOrdered
  prodHead := h.prodHead
  prodTail := h.prodTail
  consHead := h.consHead
  consTail := h.consTail
  threads := by
    intro u
    by_cases hu : u = t
    · cases p <;> simp_all [System.call, TicketOk, Pc.reservedWord, Pc.takenWord]
    · simpa [System.call, Function.update_of_ne hu] using h.threads u

theorem note_ticket_of_ne {h : History τ α} {t u : τ} (hu : u ≠ t) (e : Event α) :
    (h.note t e).ticket u = h.ticket u := by
  cases e <;> simp [History.note, Function.update_of_ne hu]

theorem note_published {h : History τ α} {t : τ} {e : Event α} (he : e ≠ .enqPublished) :
    (h.note t e).published = h.published := by
  cases e <;> simp_all [History.note]

theorem note_released {h : History τ α} {t : τ} {e : Event α} (he : ∀ item, e ≠ .deqReleased item) :
    (h.note t e).released = h.released := by
  cases e <;> simp_all [History.note]

/-- Another thread's access leaves a thread's ticket facts alone: only one thread a side can be
about to move the tail. -/
theorem Tickets.threads_of_ne {y : System τ α} (h : Tickets y) {t u : τ} (hu : u ≠ t) {r : Ring α}
    {p : Pc α} {e : Event α} (access : Access y.ring (y.pcs t) r p e) :
    TicketOk (y.history.note t e) u (y.pcs u) := by
  have hother := h.threads u
  cases hpc : y.pcs u with
  | enqPublish item w =>
      have he : e ≠ .enqPublished := by
        rintro rfl
        generalize htc : y.pcs t = q at access
        cases access
        exact hu (h.one_publisher htc hpc)
      rw [hpc] at hother
      simpa only [TicketOk, note_ticket_of_ne hu, note_published he] using hother
  | deqPublish w item =>
      have he : ∀ item, e ≠ .deqReleased item := by
        rintro item rfl
        generalize htc : y.pcs t = q at access
        cases access
        exact hu (h.one_releaser htc hpc)
      rw [hpc] at hother
      simpa only [TicketOk, note_ticket_of_ne hu, note_released he] using hother
  | enqStore | enqWait | deqFetch | deqWait =>
      rw [hpc] at hother
      simpa only [TicketOk, note_ticket_of_ne hu] using hother
  | _ => trivial

theorem Tickets.threads_self {y : System τ α} (h : Tickets y) (hfit : Fits y) {t : τ} {r : Ring α}
    {p : Pc α} {e : Event α} (access : Access y.ring (y.pcs t) r p e) :
    TicketOk (y.history.note t e) t p := by
  have hown := h.threads t
  generalize hpc : y.pcs t = q at access
  rw [hpc] at hown
  cases access with
  | enqReserved item w same =>
      simp only [TicketOk, History.note, Function.update_self]
      rw [← same, h.prodHead]
  | enqTurn item w turn => exact ⟨hown, h.prod_turn hfit hpc turn⟩
  | deqTaken w same =>
      simp only [TicketOk, History.note, Function.update_self]
      rw [← same, h.consHead]
  | deqTurn w item turn => exact ⟨hown, h.cons_turn hfit hpc turn⟩
  | enqStored | enqWaits | deqFetched | deqWaits => exact hown
  | _ => trivial

/-- The two lines and their counters after an access. -/
theorem Tickets.after {y : System τ α} (h : Tickets y) (hfit : Fits y) {t : τ} {r : Ring α}
    {p : Pc α} {e : Event α} (access : Access y.ring (y.pcs t) r p e) : Tickets (y.after t r p e) where
  prodOrdered := by
    rw [prodLine_after access]
    have hown := h.threads t
    generalize hpc : y.pcs t = q at access
    rw [hpc] at hown
    cases access with
    | enqReserved item w same =>
        exact h.prodOrdered.draw (by simp [System.prodLine, hpc, Pc.reservedWord])
    | enqPublished item w =>
        exact h.prodOrdered.serve (by simp [System.prodLine, hpc, Pc.reservedWord, hown.2])
    | _ => exact h.prodOrdered
  consOrdered := by
    rw [consLine_after access]
    have hown := h.threads t
    generalize hpc : y.pcs t = q at access
    rw [hpc] at hown
    cases access with
    | deqTaken w same =>
        exact h.consOrdered.draw (by simp [System.consLine, hpc, Pc.takenWord])
    | deqReleased w item =>
        exact h.consOrdered.serve (by simp [System.consLine, hpc, Pc.takenWord, hown.2])
    | _ => exact h.consOrdered
  prodHead := by
    generalize hpc : y.pcs t = q at access
    cases access with
    | enqReserved item w same =>
        simp only [System.after, History.note, List.length_append, List.length_singleton]
        rw [← same, h.prodHead, ofNat_add_one]
    | _ => exact h.prodHead
  prodTail := by
    have hown := h.threads t
    generalize hpc : y.pcs t = q at access
    rw [hpc] at hown
    cases access with
    | enqPublished item w =>
        simp only [System.after, History.note]
        rw [hown.1, hown.2, ofNat_add_one]
    | _ => exact h.prodTail
  consHead := by
    generalize hpc : y.pcs t = q at access
    cases access with
    | deqTaken w same =>
        simp only [System.after, History.note]
        rw [← same, h.consHead, ofNat_add_one]
    | _ => exact h.consHead
  consTail := by
    have hown := h.threads t
    generalize hpc : y.pcs t = q at access
    rw [hpc] at hown
    cases access with
    | deqReleased w item =>
        simp only [System.after, History.note]
        rw [hown.1, hown.2, ofNat_add_one]
    | _ => exact h.consTail
  threads := by
    intro u
    by_cases hu : u = t
    · subst hu
      simpa [System.after] using h.threads_self hfit access
    · simpa [System.after, Function.update_of_ne hu] using h.threads_of_ne hu access

omit [DecidableEq τ] in
theorem Tickets.fresh {ring : Ring α} (hprod : ring.prod.head = 0 ∧ ring.prod.tail = 0)
    (hcons : ring.cons.head = 0 ∧ ring.cons.tail = 0) : Tickets (System.fresh (τ := τ) ring) where
  prodOrdered := Ticket.Line.empty_ordered
  consOrdered := Ticket.Line.empty_ordered
  prodHead := hprod.1
  prodTail := hprod.2
  consHead := hcons.1
  consTail := hcons.2
  threads _ := trivial

end SimpDserver.NetRing
