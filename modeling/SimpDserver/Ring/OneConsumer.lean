import SimpDserver.Ring.ManyConsumers

/-!
# Any number of producers, one consumer

This is how the daemon uses its rings. Nobody but the one consumer moves `cons.head`, so its
emptiness test is never late and the ring is sound. What a producer turned away may conclude is
weaker: its two loads can lie almost a full turn of the counters apart.
-/

namespace SimpDserver.NetRing

open Transition

variable {τ α : Type}

def OnlyConsumer (c : τ) : Label τ α → Prop
  | .callDequeue t => t = c
  | _ => True

/-- No producer's compare-and-set runs after `2 ^ 32` or more reservations since it loaded
`prod.head`. -/
def ProducerNotOvertaken (y : System τ α) : Label τ α → Prop
  | .run t =>
      match y.pcs t with
      | .enqCmpset _ _ => y.history.reserved.length - y.history.headSeen t < 2 ^ 32
      | _ => True
  | _ => True

def Pc.Dequeues : Pc α → Prop
  | .deqLoadTail | .deqLoadHead _ | .deqCmpset _ | .deqFetch _ | .deqWait _ _ | .deqPublish _ _ => True
  | _ => False

/-- What a consumer that nobody can overtake knows at `p`. -/
def AloneOk (h : History τ α) (c : τ) : Pc α → Prop
  | .deqLoadHead _ => h.taken ≤ h.tailSeen c ∧ h.waitingSeen c = h.tailSeen c - h.taken
  | .deqCmpset _ => h.headSeen c = h.taken
  | _ => True

/-- Thread `c` is the only consumer, and it missed no item that was waiting. -/
structure Alone (c : τ) (y : System τ α) : Prop where
  only : ∀ t, (y.pcs t).Dequeues → t = c
  here : AloneOk y.history c (y.pcs c)
  missed : ∀ n ∈ y.history.missed, n = 0

theorem Alone.in_time {c : τ} {y : System τ α} (h : Alone c y) {l : Label τ α}
    (near : ProducerNotOvertaken y l) : NotOvertaken y l ∧ FreshTail y l := by
  cases l with
  | callEnqueue | callDequeue => exact ⟨trivial, trivial⟩
  | run t =>
      cases hpc : y.pcs t with
      | enqCmpset item w =>
          refine ⟨?_, by simp [FreshTail, hpc]⟩
          simpa [NotOvertaken, ProducerNotOvertaken, hpc] using near
      | deqCmpset w =>
          obtain rfl := h.only t (by simp [hpc, Pc.Dequeues])
          have hhere := h.here
          rw [hpc] at hhere
          simp only [AloneOk] at hhere
          simp [NotOvertaken, FreshTail, hpc, hhere]
      | deqLoadHead w =>
          obtain rfl := h.only t (by simp [hpc, Pc.Dequeues])
          have hhere := h.here
          rw [hpc] at hhere
          simpa [NotOvertaken, FreshTail, hpc] using hhere.1
      | _ => simp [NotOvertaken, FreshTail, hpc]

/-- A consumer that finds the ring empty found every published item taken when it loaded the tail. -/
theorem Sound.missed_of_empty {k : Nat} {y : System τ α} (h : Sound k y) (hk : k ≤ 31) {c : τ}
    (halone : Alone c y) {w : Word} (hpc : y.pcs c = .deqLoadHead w) (empty : w - y.ring.cons.head = 0) :
    y.history.waitingSeen c = 0 := by
  have hreg := h.regs c
  have hhere := halone.here
  rw [hpc] at hreg hhere
  obtain ⟨rfl, hseen⟩ := hreg
  rw [h.tickets.consHead, empty_test_iff] at empty
  have := Nat.pow_le_pow_right (show 0 < 2 by omega) hk
  have := h.room
  have := h.released_le
  have := h.published_le
  simp only [AloneOk] at hhere
  omega

variable [DecidableEq τ]

theorem Alone.after {k : Nat} {c : τ} {y : System τ α} (hs : Sound k y) (hk : k ≤ 31) (h : Alone c y)
    {t : τ} {r : Ring α} {p : Pc α} {e : Event α} (access : Access y.ring (y.pcs t) r p e) :
    Alone c (y.after t r p e) where
  only := by
    intro u hu
    by_cases hut : u = t
    · have hstay : (y.pcs t).Dequeues := by
        simp only [System.after, hut, Function.update_self] at hu
        generalize hpc : y.pcs t = q at access
        cases access <;> simp_all [Pc.Dequeues]
      exact hut ▸ h.only t hstay
    · exact h.only u (by simpa [System.after, Function.update_of_ne hut] using hu)
  here := by
    have hhere := h.here
    by_cases hct : c = t
    · subst hct
      have htak := hs.taken_le
      simp only [System.after, Function.update_self]
      generalize hpc : y.pcs c = q at access
      cases access with
      | deqSawTail => simpa [AloneOk, History.note] using htak
      | deqAdmitted w busy => simp [AloneOk, History.note]
      | _ => trivial
    · simp only [System.after, Function.update_of_ne hct]
      -- a thread other than the consumer takes nothing
      have hnot : ¬ (y.pcs t).Dequeues := fun hd => hct (h.only t hd).symm
      generalize hpc : y.pcs t = q at access hnot
      cases access with
      | deqSawTail | deqEmpty | deqAdmitted | deqTaken | deqRetry | deqFetched | deqWaits | deqTurn
      | deqReleased => exact absurd trivial hnot
      | enqSawHead =>
          cases hq : y.pcs c <;> rw [hq] at hhere <;>
            simp_all [AloneOk, History.note]
      | _ => exact hhere
  missed := by
    intro n hn
    generalize hpc : y.pcs t = q at access
    cases access with
    | deqEmpty w empty =>
        obtain rfl := h.only t (by simp [hpc, Pc.Dequeues])
        simp only [System.after, History.note, List.mem_append, List.mem_singleton] at hn
        rcases hn with hn | rfl
        · exact h.missed n hn
        · exact hs.missed_of_empty hk h hpc empty
    | _ => exact h.missed n hn

theorem Alone.next {k : Nat} {c : τ} {y y' : System τ α} {l : Label τ α} (hs : Sound k y) (hk : k ≤ 31)
    (h : Alone c y) (honly : OnlyConsumer c l) (hstep : y.next l = some y') : Alone c y' := by
  cases move_of_next hstep with
  | callEnqueue t item idle =>
      refine ⟨fun u hu => ?_, ?_, h.missed⟩
      · by_cases hut : u = t
        · simp [System.call, hut, Pc.Dequeues] at hu
        · exact h.only u (by simpa [System.call, Function.update_of_ne hut] using hu)
      · by_cases hct : c = t
        · simp [System.call, hct, AloneOk]
        · simpa [System.call, Function.update_of_ne hct] using h.here
  | callDequeue t idle =>
      obtain rfl : t = c := honly
      refine ⟨fun u hu => ?_, by simp [System.call, AloneOk], h.missed⟩
      by_cases hut : u = t
      · exact hut
      · exact h.only u (by simpa [System.call, Function.update_of_ne hut] using hu)
  | run t access => exact h.after hs hk access

theorem sound_of_only_consumer {c : τ} {y : System τ α}
    (h : (machine τ α).Reachable (fun y l => OnlyConsumer c l ∧ ProducerNotOvertaken y l) y) :
    (∃ k, 1 ≤ k ∧ k ≤ 31 ∧ Sound k y) ∧ Alone c y := by
  refine h.invariant (I := fun y => (∃ k, 1 ≤ k ∧ k ≤ 31 ∧ Sound k y) ∧ Alone c y)
    (fun y hstart => ⟨sound_of_reachable (.start hstart), ?_⟩) (fun y l y' hy admitted hstep => ?_)
  · obtain ⟨malloc, junk, fuel, nem, ring, hcreate, rfl⟩ := hstart
    exact ⟨fun _ h => h.elim, trivial, fun n hn => by simp [System.fresh, History.empty] at hn⟩
  · obtain ⟨⟨k, hlo, hhi, hsound⟩, halone⟩ := hy
    exact ⟨⟨k, hlo, hhi, hsound.next hhi (halone.in_time admitted.2) hstep⟩,
      halone.next hsound hhi admitted.1 hstep⟩

/-- A queue with one consumer: the deliveries are the reservations in order, stored and undelivered
items stay in their slots, the ring never holds more than it has room for, and the two kinds of `-1`
tell what the caller saw when it loaded its own counter. -/
structure FifoQueue (y : System τ α) : Prop where
  in_order : y.history.delivered.map Prod.fst = (List.range y.history.delivered.length).map some
  is_prefix : y.history.delivered.map Prod.snd <+: y.history.reserved.map some
  in_slot : ∀ n ∈ y.history.stored, some n ∉ y.history.delivered.map Prod.fst →
    ∃ item, y.history.reserved[n]? = some item ∧
      y.ring.ring (BitVec.ofNat 32 n &&& y.ring.prod.mask) = some item
  bounded : (y.ring.prod.head - y.ring.cons.tail).toNat ≤ y.ring.prod.size.toNat - 1
  refused : ∀ n ∈ y.history.refused, n.1 = y.ring.prod.size.toNat - 1 ∨
    2 ^ 32 - (y.ring.prod.size.toNat - 1) ≤ n.2
  missed : ∀ n ∈ y.history.missed, n = 0

omit [DecidableEq τ] in
theorem Sound.fifo {k : Nat} {y : System τ α} (h : Sound k y) (hk : k ≤ 31)
    (hmissed : ∀ n ∈ y.history.missed, n = 0) : FifoQueue y := by
  have hpow := Nat.pow_le_pow_right (show 0 < 2 by omega) hk
  have hbound := h.released_le.trans (h.taken_le.trans h.published_le)
  have hsize : y.ring.prod.size.toNat = 2 ^ k := by
    rw [h.size, BitVec.toNat_ofNat, Nat.mod_eq_of_lt (by omega)]
  have hlength : y.history.delivered.length = y.history.released := by simp [h.delivered]
  refine ⟨?_, ?_, ?_, ?_, ?_, hmissed⟩
  · rw [hlength, h.delivered, List.map_map]
    rfl
  · rw [h.delivered, List.map_map, List.prefix_iff_eq_take]
    apply List.ext_getElem?
    intro i
    simp only [List.getElem?_map, List.getElem?_take, List.length_map, List.length_range]
    by_cases hi : i < y.history.released
    · rw [if_pos hi, List.getElem?_range hi]
      simp [List.getElem?_eq_getElem (lt_of_lt_of_le hi hbound)]
    · rw [if_neg hi, List.getElem?_eq_none (by simpa using hi)]
      rfl
  · intro n hn hundelivered
    rw [h.stored, List.mem_range] at hn
    have hge : y.history.released ≤ n := by
      by_contra hlt
      exact hundelivered (by rw [h.delivered, List.map_map]; simpa using hlt)
    have hitem := List.getElem?_eq_getElem (lt_of_lt_of_le hn h.published_le)
    refine ⟨_, hitem, ?_⟩
    rw [h.mask]
    exact (h.filled n hge hn).1.trans hitem
  · rw [hsize, h.tickets.prodHead, h.tickets.consTail]
    obtain ⟨d, hd⟩ := Nat.exists_eq_add_of_le hbound
    have hroom := h.room
    rw [hd, BitVec.ofNat_add, add_sub_cancel_left, BitVec.toNat_ofNat, Nat.mod_eq_of_lt (by omega)]
    omega
  · rw [hsize]
    exact h.refused

/-- With one consumer the ring is a bounded queue in every reachable state. -/
theorem fifo_of_only_consumer {c : τ} {y : System τ α}
    (h : (machine τ α).Reachable (fun y l => OnlyConsumer c l ∧ ProducerNotOvertaken y l) y) :
    FifoQueue y := by
  obtain ⟨⟨k, -, hk, hsound⟩, halone⟩ := sound_of_only_consumer h
  exact hsound.fifo hk halone.missed

instance (c : τ) : (l : Label τ α) → Decidable (OnlyConsumer c l)
  | .callEnqueue .. | .run _ => .isTrue trivial
  | .callDequeue t => inferInstanceAs (Decidable (t = c))

omit [DecidableEq τ] in
instance (y : System τ α) : (l : Label τ α) → Decidable (ProducerNotOvertaken y l)
  | .callEnqueue .. | .callDequeue _ => .isTrue trivial
  | .run t => by
      dsimp only [ProducerNotOvertaken]
      generalize y.pcs t = p
      induction p using Pc.casesOn <;> dsimp only <;> infer_instance

/-- Two producers fill and overfill the two-slot ring, and thread 2 empties it and finds it empty. -/
theorem fifo_of_only_consumer_pair :
    ∃ y : System Nat Nat, FifoQueue y ∧ y.history.delivered = [(some 0, some 7)] ∧
      y.history.refused = [(1, 0)] ∧ y.history.missed = [0] := by
  have hrun : ((machine Nat Nat).replay (fun y l => OnlyConsumer 2 l ∧ ProducerNotOvertaken y l)
      (.fresh pairRing) (enqueueAlone 0 7 ++ [.callEnqueue 1 8, .run 1, .run 1] ++ dequeueAlone 2
        ++ [.callDequeue 2, .run 2, .run 2])).map
      (fun y => (y.history.delivered, y.history.refused, y.history.missed))
      = some ([(some 0, some 7)], [(1, 0)], [0]) := by decide
  obtain ⟨y, hreach, hnotes⟩ := Machine.Reachable.of_replay pairRing_start _ hrun
  simp only [Prod.mk.injEq] at hnotes
  exact ⟨y, fifo_of_only_consumer hreach, hnotes⟩

/-! ### A producer turned away from an empty ring -/

theorem run_call {guard : System τ α → Label τ α → Prop} {y z : System τ α} {t : τ} {l : Label τ α}
    {p : Pc α} {ls : List (Label τ α)} (admitted : guard y l) (idle : y.pcs t = .idle)
    (hcall : (l = .callDequeue t ∧ p = .deqLoadTail) ∨ ∃ item, l = .callEnqueue t item ∧ p = .enqLoadHead item)
    (rest : (machine τ α).Run guard (y.call t p) ls z) : (machine τ α).Run guard y (l :: ls) z := by
  refine Machine.Run.cons admitted ?_ rest
  rcases hcall with ⟨rfl, rfl⟩ | ⟨item, rfl, rfl⟩ <;>
    simp only [machine, System.next, State.step, idle, System.call]

theorem run_access {guard : System τ α → Label τ α → Prop} {y z : System τ α} {t : τ} {r : Ring α}
    {p : Pc α} {e : Event α} {ls : List (Label τ α)} (admitted : guard y (.run t))
    (hstep : (y.pcs t).step y.ring = some (r, p, e))
    (rest : (machine τ α).Run guard (y.after t r p e) ls z) : (machine τ α).Run guard y (.run t :: ls) z :=
  Machine.Run.cons admitted (System.next_run hstep) rest

/-- On the two-slot ring with `n` items gone through it, thread 0 still holds the `prod.head` it
loaded when nothing had. -/
structure Stalled (n : Nat) (y : System Nat Nat) : Prop where
  size : y.ring.prod.size = 2
  mask : y.ring.prod.mask = 1
  prodHead : y.ring.prod.head = BitVec.ofNat 32 n
  prodTail : y.ring.prod.tail = BitVec.ofNat 32 n
  consHead : y.ring.cons.head = BitVec.ofNat 32 n
  consTail : y.ring.cons.tail = BitVec.ofNat 32 n
  held : y.pcs 0 = .enqLoadTail 9 0
  producer : y.pcs 1 = .idle
  consumer : y.pcs 2 = .idle
  reserved : y.history.reserved.length = n
  released : y.history.released = n
  headSeen : y.history.headSeen 0 = 0
  inUseSeen : y.history.inUseSeen 0 = 0

/-- The runs of thread 2 alone consuming. -/
abbrev ByThreadTwo (y : System Nat Nat) (l : Label Nat Nat) : Prop :=
  OnlyConsumer 2 l ∧ ProducerNotOvertaken y l

theorem Stalled.enqueue {n : Nat} {y : System Nat Nat} (h : Stalled n y) :
    ∃ z, (machine Nat Nat).Run ByThreadTwo y (enqueueAlone 1 7) z ∧
      (z.ring.prod.head = BitVec.ofNat 32 (n + 1) ∧ z.ring.prod.tail = BitVec.ofNat 32 (n + 1)) ∧
      (z.ring.prod.size = 2 ∧ z.ring.prod.mask = 1 ∧ z.ring.cons = y.ring.cons ∧
        z.pcs = Function.update y.pcs 1 .idle) ∧
      z.history.reserved.length = n + 1 ∧ z.history.released = n ∧ z.history.headSeen 0 = 0 ∧
        z.history.inUseSeen 0 = 0 := by
  let w := BitVec.ofNat 32 n
  let r₁ : Ring Nat := { y.ring with prod := { y.ring.prod with head := w + 1 } }
  let r₂ : Ring Nat := { r₁ with ring := Function.update r₁.ring (w &&& 1) (some 7) }
  let r₃ : Ring Nat := { r₂ with prod := { r₂.prod with tail := w + 1 } }
  let y₁ := y.call 1 (.enqLoadHead 7)
  let y₂ := y₁.after 1 y.ring (.enqLoadTail 7 w) .enqSawHead
  let y₃ := y₂.after 1 y.ring (.enqCmpset 7 w) .enqAdmitted
  let y₄ := y₃.after 1 r₁ (.enqStore 7 w) (.enqReserved 7)
  let y₅ := y₄.after 1 r₂ (.enqWait 7 w) (.enqStored (w &&& 1))
  let y₆ := y₅.after 1 r₂ (.enqPublish 7 w) .enqTurn
  let y₇ := y₆.after 1 r₃ .idle .enqPublished
  refine ⟨y₇, run_call (t := 1) (p := .enqLoadHead 7) ⟨trivial, trivial⟩ h.producer
    (.inr ⟨7, rfl, rfl⟩) (run_access (y := y₁) (e := .enqSawHead) ⟨trivial, ?_⟩ ?_
    (run_access (y := y₂) (e := .enqAdmitted) ⟨trivial, ?_⟩ ?_
    (run_access (y := y₃) (e := .enqReserved 7) ⟨trivial, ?_⟩ ?_
    (run_access (y := y₄) (e := .enqStored (w &&& 1)) ⟨trivial, ?_⟩ ?_
    (run_access (y := y₅) (e := .enqTurn) ⟨trivial, ?_⟩ ?_
    (run_access (y := y₆) (e := .enqPublished) ⟨trivial, ?_⟩ ?_ (.nil y₇))))))),
    ⟨ofNat_add_one n, ofNat_add_one n⟩, ?_, ?_⟩
  · simp [y₁, ProducerNotOvertaken]
  · simp [y₁, System.call, Pc.step, h.prodHead, w]
  · simp [y₂, ProducerNotOvertaken]
  · simp [y₂, y₁, System.call, System.after, Pc.step, h.consTail, h.mask, w]
  · simp [y₃, y₂, y₁, ProducerNotOvertaken, System.after, System.call, History.note]
  · simp [y₃, System.after, Pc.step, atomic32Cmpset, h.prodHead, w, r₁]
  · simp [y₄, ProducerNotOvertaken]
  · simp [y₄, System.after, Pc.step, h.mask, r₁, r₂]
  · simp [y₅, ProducerNotOvertaken]
  · simp [y₅, System.after, Pc.step, h.prodTail, r₁, r₂, w]
  · simp [y₆, ProducerNotOvertaken]
  · simp [y₆, System.after, Pc.step, r₁, r₂, r₃]
  · simp [y₇, y₆, y₅, y₄, y₃, y₂, y₁, r₁, r₂, r₃, System.after, System.call, h.size, h.mask]
  · simp [y₇, y₆, y₅, y₄, y₃, y₂, y₁, System.after, System.call, History.note, h.reserved, h.released,
      h.headSeen, h.inUseSeen]

/-- Thread 1 enqueues an item and thread 2 dequeues it. -/
theorem Stalled.round {n : Nat} {y : System Nat Nat} (h : Stalled n y) :
    ∃ z, (machine Nat Nat).Run ByThreadTwo y (enqueueAlone 1 7 ++ dequeueAlone 2) z ∧ Stalled (n + 1) z := by
  obtain ⟨z, hrun, ⟨hhead, htail⟩, ⟨hsize, hmask, hcons, hpcs⟩, hreserved, hreleased, hseen, huse⟩ :=
    h.enqueue
  let w := BitVec.ofNat 32 n
  let x := z.ring.ring (w &&& 1)
  let r₁ : Ring Nat := { z.ring with cons := { z.ring.cons with head := w + 1 } }
  let r₂ : Ring Nat := { r₁ with cons := { r₁.cons with tail := w + 1 } }
  let z₁ := z.call 2 .deqLoadTail
  let z₂ := z₁.after 2 z.ring (.deqLoadHead (w + 1)) .deqSawTail
  let z₃ := z₂.after 2 z.ring (.deqCmpset w) .deqAdmitted
  let z₄ := z₃.after 2 r₁ (.deqFetch w) .deqTaken
  let z₅ := z₄.after 2 r₁ (.deqWait w x) (.deqFetched (w &&& 1))
  let z₆ := z₅.after 2 r₁ (.deqPublish w x) .deqTurn
  let z₇ := z₆.after 2 r₂ .idle (.deqReleased x)
  have hconsHead : z.ring.cons.head = w := by rw [hcons, h.consHead]
  have hconsTail : z.ring.cons.tail = w := by rw [hcons, h.consTail]
  have hprodTail : z.ring.prod.tail = w + 1 := htail.trans (ofNat_add_one n).symm
  refine ⟨z₇, hrun.append (run_call (t := 2) (p := .deqLoadTail) ⟨rfl, trivial⟩ (by simp [hpcs, h.consumer])
    (.inl ⟨rfl, rfl⟩) (run_access (y := z₁) (e := .deqSawTail) ⟨trivial, ?_⟩ ?_
    (run_access (y := z₂) (e := .deqAdmitted) ⟨trivial, ?_⟩ ?_
    (run_access (y := z₃) (e := .deqTaken) ⟨trivial, ?_⟩ ?_
    (run_access (y := z₄) (e := .deqFetched (w &&& 1)) ⟨trivial, ?_⟩ ?_
    (run_access (y := z₅) (e := .deqTurn) ⟨trivial, ?_⟩ ?_
    (run_access (y := z₆) (e := .deqReleased x) ⟨trivial, ?_⟩ ?_ (.nil z₇)))))))), ?_⟩
  · simp [z₁, ProducerNotOvertaken]
  · simp [z₁, System.call, Pc.step, hprodTail]
  · simp [z₂, ProducerNotOvertaken]
  · simp [z₂, System.after, Pc.step, hconsHead]
  · simp [z₃, ProducerNotOvertaken]
  · simp [z₃, System.after, Pc.step, atomic32Cmpset, hconsHead, r₁]
  · simp [z₄, ProducerNotOvertaken]
  · simp [z₄, System.after, Pc.step, hmask, r₁, x]
  · simp [z₅, ProducerNotOvertaken]
  · simp [z₅, System.after, Pc.step, hconsTail, r₁]
  · simp [z₆, ProducerNotOvertaken]
  · simp [z₆, System.after, Pc.step, r₁, r₂]
  · exact {
      size := hsize
      mask := hmask
      prodHead := hhead
      prodTail := htail
      consHead := ofNat_add_one n
      consTail := ofNat_add_one n
      held := by simp [z₇, z₆, z₅, z₄, z₃, z₂, z₁, System.after, System.call, hpcs, h.held]
      producer := by simp [z₇, z₆, z₅, z₄, z₃, z₂, z₁, System.after, System.call, hpcs]
      consumer := by simp [z₇]
      reserved := hreserved
      released := congrArg (· + 1) hreleased
      headSeen := by
        simpa [z₇, z₆, z₅, z₄, z₃, z₂, z₁, System.after, System.call, History.note] using hseen
      inUseSeen := huse }

/-- Any number of items can go by while thread 0 stands between its two loads. -/
theorem Stalled.rounds {y : System Nat Nat} (h : Stalled 0 y) (n : Nat) :
    ∃ es z, (machine Nat Nat).Run ByThreadTwo y es z ∧ Stalled n z := by
  induction n with
  | zero => exact ⟨[], y, .nil y, h⟩
  | succ n ih =>
      obtain ⟨es, z, hrun, hz⟩ := ih
      obtain ⟨z', hrun', hz'⟩ := hz.round
      exact ⟨_, z', hrun.append hrun', hz'⟩

/-- Thread 0 loads `prod.head` of the empty ring; `2 ^ 32 - 1` items pass through it; thread 0 then
loads `cons.tail` and is told that the ring is full. -/
theorem refused_by_empty_ring :
    ¬ ∀ y : System Nat Nat, (machine Nat Nat).Reachable ByThreadTwo y →
      ∀ n ∈ y.history.refused, n.1 = y.ring.prod.size.toNat - 1 := by
  intro hall
  let y₁ := (System.fresh pairRing).call 0 (.enqLoadHead 9)
  let y₂ := y₁.after 0 pairRing (.enqLoadTail 9 0) .enqSawHead
  have hstart : Stalled 0 y₂ := by constructor <;> rfl
  obtain ⟨es, z, hrun, hz⟩ := hstart.rounds (2 ^ 32 - 1)
  let z' := z.after 0 z.ring .idle .enqFull
  have hfull : (z.pcs 0).step z.ring = some (z.ring, .idle, .enqFull) := by
    rw [hz.held]
    simp [Pc.step, hz.consTail, hz.mask]
  have hreach : (machine Nat Nat).Reachable ByThreadTwo z' := by
    have hload : (machine Nat Nat).Run ByThreadTwo (.fresh pairRing) [.callEnqueue 0 9, .run 0] y₂ :=
      run_call (t := 0) (p := .enqLoadHead 9) ⟨trivial, trivial⟩ rfl (.inr ⟨9, rfl, rfl⟩)
        (run_access (y := y₁) (e := .enqSawHead) ⟨trivial, trivial⟩ rfl (.nil y₂))
    have hturned : (machine Nat Nat).Run ByThreadTwo z [.run 0] z' :=
      run_access ⟨trivial, by simp [ProducerNotOvertaken, hz.held]⟩ hfull (.nil z')
    exact ⟨_, _, pairRing_start, (hload.append hrun).append hturned⟩
  have hmem : (0, 2 ^ 32 - 1) ∈ z'.history.refused := by
    simp [z', System.after, History.note, hz.inUseSeen, hz.headSeen, hz.reserved]
  have hmissed := hall z' hreach _ hmem
  simp [z', System.after, hz.size] at hmissed

end SimpDserver.NetRing
