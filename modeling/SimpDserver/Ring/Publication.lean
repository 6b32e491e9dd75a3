import SimpDserver.Ring.ManyConsumers

/-!
# The publication waits

A thread that won its compare-and-set waits until the tail of its side is the counter value it reserved,
and then stores the next one. With fewer than `2 ^ 32` threads on a side, the values reserved and not yet
stored are all different, so the value at the tail belongs to one thread, and to that thread the tail is
already what it waits for.
-/

namespace SimpDserver.NetRing

open Transition

variable {τ α : Type}

/-- A ring has two sides, alike but for what is put into a slot or taken out of it. -/
inductive Side where
  | producers
  | consumers
  deriving DecidableEq

/-- A thread inside the function of this side. -/
def Pc.inCall : Side → Pc α → Prop
  | .producers, .enqLoadHead _ | .producers, .enqLoadTail _ _ | .producers, .enqCmpset _ _
  | .producers, .enqStore _ _ | .producers, .enqWait _ _ | .producers, .enqPublish _ _ => True
  | .consumers, .deqLoadTail | .consumers, .deqLoadHead _ | .consumers, .deqCmpset _
  | .consumers, .deqFetch _ | .consumers, .deqWait _ _ | .consumers, .deqPublish _ _ => True
  | _, _ => False

/-- The value reserved on this side by a thread that won its compare-and-set and has not stored the tail. -/
def Pc.heldWord : Side → Pc α → Option Word
  | .producers, p => p.reservedWord
  | .consumers, p => p.takenWord

/-- The next access is the wait test of this side. -/
def Pc.atWait : Side → Pc α → Prop
  | .producers, .enqWait _ _ => True
  | .consumers, .deqWait _ _ => True
  | _, _ => False

/-- The next access is the store of this side's tail. -/
def Pc.atStore : Side → Pc α → Prop
  | .producers, .enqPublish _ _ => True
  | .consumers, .deqPublish _ _ => True
  | _, _ => False

namespace System

/-- The counters of a side, and the values its threads have reserved and not yet stored. -/
def window (y : System τ α) : Side → Ticket.Window τ 32
  | .producers => ⟨y.ring.prod.head, y.ring.prod.tail, fun t => (y.pcs t).heldWord .producers⟩
  | .consumers => ⟨y.ring.cons.head, y.ring.cons.tail, fun t => (y.pcs t).heldWord .consumers⟩

/-- The successful compare-and-sets and tail stores of a side, counted without wrapping. -/
def line (y : System τ α) : Side → Ticket.Line τ
  | .producers => y.prodLine
  | .consumers => y.consLine

end System

/-- Only these threads call `enqueue`, and only those `dequeue`. -/
def CalledBy (threads : Side → Finset τ) (_ : System τ α) : Label τ α → Prop
  | .callEnqueue t _ => t ∈ threads .producers
  | .callDequeue t => t ∈ threads .consumers
  | .run _ => True

/-- The tickets are in order, and only the threads named are inside a call. -/
structure Manned (threads : Side → Finset τ) (y : System τ α) : Prop where
  tickets : Tickets y
  callers : ∀ side t, (y.pcs t).inCall side → t ∈ threads side

theorem System.line_ticket (y : System τ α) (side : Side) (t : τ) :
    (y.line side).ticket t = ((y.pcs t).heldWord side).map fun _ => y.history.ticket t := by
  cases side <;> rfl

theorem TicketOk.heldWord_eq {h : History τ α} {t : τ} {p : Pc α} (hown : TicketOk h t p) {side : Side} {w : Word}
    (hw : p.heldWord side = some w) : w = BitVec.ofNat 32 (h.ticket t) := by
  cases side with
  | producers =>
      cases p with
      | enqStore item w | enqWait item w =>
          cases hw
          exact hown
      | enqPublish item w =>
          cases hw
          exact hown.1
      | _ => cases hw
  | consumers =>
      cases p with
      | deqFetch w | deqWait w item =>
          cases hw
          exact hown
      | deqPublish w item =>
          cases hw
          exact hown.1
      | _ => cases hw

theorem Tickets.window_eq {y : System τ α} (h : Tickets y) (side : Side) :
    y.window side = (y.line side).window 32 := by
  have hheld : (fun t => (y.pcs t).heldWord side) = fun t => ((y.line side).ticket t).map (BitVec.ofNat 32) := by
    funext t
    rw [System.line_ticket, Option.map_map]
    cases hw : (y.pcs t).heldWord side with
    | none => rfl
    | some w => exact congrArg some ((h.threads t).heldWord_eq hw)
  rw [Ticket.Line.window, ← hheld]
  cases side with
  | producers =>
      rw [System.window, h.prodHead, h.prodTail]
      rfl
  | consumers =>
      rw [System.window, h.consHead, h.consTail]
      rfl

theorem Tickets.ordered {y : System τ α} (h : Tickets y) (side : Side) : (y.line side).Ordered := by
  cases side with
  | producers => exact h.prodOrdered
  | consumers => exact h.consOrdered

theorem Pc.inCall_of_heldWord {side : Side} {p : Pc α} {w : Word} (h : p.heldWord side = some w) : p.inCall side := by
  cases side <;> cases p <;> first | exact trivial | cases h

theorem Access.inCall_of_inCall {r r' : Ring α} {p p' : Pc α} {e : Event α} (access : Access r p r' p' e)
    {side : Side} (h : p'.inCall side) : p.inCall side := by
  cases access <;> cases side <;> first | exact trivial | exact h.elim

theorem System.heldWord_of_ticket {y : System τ α} {side : Side} {t : τ} {n : Nat}
    (h : (y.line side).ticket t = some n) : ∃ w, (y.pcs t).heldWord side = some w := by
  rw [System.line_ticket, Option.map_eq_some_iff] at h
  obtain ⟨w, hw, -⟩ := h
  exact ⟨w, hw⟩

section Manned

variable {threads : Side → Finset τ} {y : System τ α}

/-- Fewer tickets than counter values are out on each side. -/
theorem Manned.line_fits (h : Manned threads y) (hcard : ∀ side, (threads side).card < 2 ^ 32) (side : Side) :
    (y.line side).head < (y.line side).tail + 2 ^ 32 := by
  have hholders : ∀ t n, (y.line side).ticket t = some n → t ∈ threads side := by
    intro t n hn
    obtain ⟨w, hw⟩ := System.heldWord_of_ticket hn
    exact h.callers side t (Pc.inCall_of_heldWord hw)
  have := (h.tickets.ordered side).head_le_tail_add_card hholders
  have := hcard side
  omega

theorem Manned.fits (h : Manned threads y) (hcard : ∀ side, (threads side).card < 2 ^ 32) : Fits y where
  prod := (h.line_fits hcard .producers).le
  cons := (h.line_fits hcard .consumers).le

variable [DecidableEq τ]

/-- Only thread `t` moved, and it was entitled to the call it is in. -/
theorem Manned.callers_update (h : Manned threads y) {t : τ} {p : Pc α}
    (hp : ∀ side, p.inCall side → t ∈ threads side) (side : Side) (u : τ)
    (hu : (Function.update y.pcs t p u).inCall side) : u ∈ threads side := by
  by_cases hut : u = t
  · subst hut
    rw [Function.update_self] at hu
    exact hp side hu
  · rw [Function.update_of_ne hut] at hu
    exact h.callers side u hu

theorem Manned.next (h : Manned threads y) (hcard : ∀ side, (threads side).card < 2 ^ 32) {l : Label τ α}
    {y' : System τ α} (hcalled : CalledBy threads y l) (hstep : y.next l = some y') : Manned threads y' := by
  cases move_of_next hstep with
  | callEnqueue t item idle =>
      refine ⟨h.tickets.call idle rfl rfl, h.callers_update fun side hside => ?_⟩
      cases side with
      | producers => exact hcalled
      | consumers => exact hside.elim
  | callDequeue t idle =>
      refine ⟨h.tickets.call idle rfl rfl, h.callers_update fun side hside => ?_⟩
      cases side with
      | producers => exact hside.elim
      | consumers => exact hcalled
  | run t access =>
      refine ⟨h.tickets.after (h.fits hcard) access, h.callers_update fun side hside => ?_⟩
      exact h.callers side t (access.inCall_of_inCall hside)

theorem manned_of_reachable (hcard : ∀ side, (threads side).card < 2 ^ 32)
    (h : (machine τ α).Reachable (CalledBy threads) y) : Manned threads y := by
  refine h.invariant (fun y hstart => ?_) fun y l y' hy hcalled hstep => hy.next hcard hcalled hstep
  obtain ⟨malloc, junk, fuel, nem, ring, hcreate, rfl⟩ := hstart
  obtain ⟨-, -, -, -, -, hprod, hcons⟩ := create_spec hcreate
  exact ⟨.fresh hprod hcons, fun side t ht => by cases side <;> exact ht.elim⟩

end Manned

/-! ### Waiting and storing -/

/-- The step is the store of this side's tail. -/
def StoresTail (side : Side) (y : System τ α) (l : Label τ α) : Prop := ∃ t, l = .run t ∧ (y.pcs t).atStore side

variable [DecidableEq τ]

/-- What holds of a side in a state, and of the steps from there. -/
structure Publishes (side : Side) (y : System τ α) : Prop where
  -- the values reserved and not yet stored are those from the tail on, up to the head, each with one thread
  exact : (y.window side).Exact
  -- one of these threads finds its own value in the tail
  turn : (y.window side).tail ≠ (y.window side).head → ∃! t, (y.window side).held t = some (y.window side).tail
  -- and a wait test lets its thread through just then
  wait : ∀ t y', (y.pcs t).atWait side → y.next (.run t) = some y' →
    ((y'.pcs t).atStore side ↔ (y.window side).held t = some (y.window side).tail)
  -- the turn's thread stores the tail within three accesses of its own
  progress : (y.window side).tail ≠ (y.window side).head → ∃ t, ∃ n ≤ 3, ∃ y',
    (machine τ α).Run (fun _ _ => True) y (List.replicate n (.run t)) y' ∧
      (y'.window side).tail = (y.window side).tail + 1
  store : ∀ l y', y.next l = some y' → StoresTail side y l →
    (y.window side).tail ≠ (y.window side).head ∧ (y'.window side).tail = (y.window side).tail + 1 ∧
      (y'.window side).head = (y.window side).head
  kept : ∀ l y', y.next l = some y' → ¬StoresTail side y l → (y'.window side).tail = (y.window side).tail
  -- counted without wrapping, the tail is behind the head by less than the words there are
  not_passed : y.window side = (y.line side).window 32 ∧ (y.line side).tail ≤ (y.line side).head ∧
    (y.line side).head < (y.line side).tail + 2 ^ 32

omit [DecidableEq τ] in
theorem System.window_held (y : System τ α) (side : Side) (t : τ) :
    (y.window side).held t = (y.pcs t).heldWord side := by
  cases side <;> rfl

theorem wait_passes_iff {side : Side} {y y' : System τ α} {t : τ} (hwait : (y.pcs t).atWait side)
    (hstep : y.next (.run t) = some y') :
    (y'.pcs t).atStore side ↔ (y.window side).held t = some (y.window side).tail := by
  cases move_of_next hstep with
  | run _ access =>
      rw [System.after_pcs_self, System.window_held]
      generalize y.pcs t = p at access hwait
      cases side with
      | producers =>
          cases access with
          | enqWaits item w wait =>
              exact iff_of_false not_false fun heq => wait (Option.some.inj heq).symm
          | enqTurn item w turn => exact iff_of_true trivial (congrArg some turn.symm)
          | _ => exact hwait.elim
      | consumers =>
          cases access with
          | deqWaits w item wait =>
              exact iff_of_false not_false fun heq => wait (Option.some.inj heq).symm
          | deqTurn w item turn => exact iff_of_true trivial (congrArg some turn.symm)
          | _ => exact hwait.elim

/-- The accesses a thread still has to make, up to the store of this side's tail. -/
def Pc.accessesLeft : Side → Pc α → Nat
  | .producers, .enqStore _ _ | .consumers, .deqFetch _ => 3
  | .producers, .enqWait _ _ | .consumers, .deqWait _ _ => 2
  | .producers, .enqPublish _ _ | .consumers, .deqPublish _ _ => 1
  | _, _ => 0

def Ring.tail (r : Ring α) : Side → Word
  | .producers => r.prod.tail
  | .consumers => r.cons.tail

omit [DecidableEq τ] in
theorem System.window_tail (y : System τ α) (side : Side) : (y.window side).tail = y.ring.tail side := by
  cases side <;> rfl

/-- The next access of a thread that reserved the value at the tail stores the tail, or brings the thread closer
to that. -/
theorem Pc.access_of_turn {side : Side} {r : Ring α} {p : Pc α} (hturn : p.heldWord side = some (r.tail side)) :
    ∃ r' p' e, Access r p r' p' e ∧
      (r'.tail side = r.tail side + 1 ∨ p'.heldWord side = some (r'.tail side) ∧ r'.tail side = r.tail side) ∧
      p.accessesLeft side = p'.accessesLeft side + 1 := by
  cases side with
  | producers =>
      cases p with
      | enqStore item w => exact ⟨_, _, _, .enqStored item w, Or.inr ⟨hturn, rfl⟩, rfl⟩
      | enqWait item w =>
          have htail : r.prod.tail = w := (Option.some.inj hturn).symm
          exact ⟨_, _, _, .enqTurn item w htail, Or.inr ⟨hturn, rfl⟩, rfl⟩
      | enqPublish item w => exact ⟨_, _, _, .enqPublished item w, Or.inl (congrArg (· + 1) (Option.some.inj hturn)), rfl⟩
      | _ => cases hturn
  | consumers =>
      cases p with
      | deqFetch w => exact ⟨_, _, _, .deqFetched w, Or.inr ⟨hturn, rfl⟩, rfl⟩
      | deqWait w item =>
          have htail : r.cons.tail = w := (Option.some.inj hturn).symm
          exact ⟨_, _, _, .deqTurn w item htail, Or.inr ⟨hturn, rfl⟩, rfl⟩
      | deqPublish w item => exact ⟨_, _, _, .deqReleased w item, Or.inl (congrArg (· + 1) (Option.some.inj hturn)), rfl⟩
      | _ => cases hturn

theorem turn_step {side : Side} {y : System τ α} {t : τ}
    (hturn : (y.window side).held t = some (y.window side).tail) :
    ∃ y', y.next (.run t) = some y' ∧
      ((y'.window side).tail = (y.window side).tail + 1 ∨
        (y'.window side).held t = some (y'.window side).tail ∧ (y'.window side).tail = (y.window side).tail) ∧
      (y.pcs t).accessesLeft side = (y'.pcs t).accessesLeft side + 1 := by
  simp only [System.window_held, System.window_tail] at hturn ⊢
  obtain ⟨r', p', e, access, hcloser, hleft⟩ := Pc.access_of_turn hturn
  refine ⟨_, System.next_run access.step, ?_, ?_⟩
  · rw [System.after_pcs_self]
    exact hcloser
  · rw [System.after_pcs_self]
    exact hleft

theorem turn_progress {side : Side} {left : Nat} {y : System τ α} {t : τ} (hleft : (y.pcs t).accessesLeft side = left)
    (hturn : (y.window side).held t = some (y.window side).tail) :
    ∃ n ≤ left, ∃ y', (machine τ α).Run (fun _ _ => True) y (List.replicate n (.run t)) y' ∧
      (y'.window side).tail = (y.window side).tail + 1 := by
  induction left generalizing y with
  | zero =>
      obtain ⟨_, -, -, hstep⟩ := turn_step hturn
      omega
  | succ left ih =>
      obtain ⟨y₁, hnext, hstored | ⟨hturn₁, htail₁⟩, hstep⟩ := turn_step hturn
      · exact ⟨1, Nat.succ_pos left, y₁, .single trivial hnext, hstored⟩
      · obtain ⟨n, hn, y₂, hrun, htail₂⟩ := ih (by omega) hturn₁
        exact ⟨n + 1, Nat.succ_le_succ hn, y₂, .cons trivial hnext hrun, htail₂.trans (congrArg (· + 1) htail₁)⟩

theorem accessesLeft_le (side : Side) (p : Pc α) : p.accessesLeft side ≤ 3 := by
  cases side <;> cases p <;> simp [Pc.accessesLeft]

theorem tail_kept {side : Side} {y y' : System τ α} {l : Label τ α} (hstep : y.next l = some y')
    (hno : ¬StoresTail side y l) : (y'.window side).tail = (y.window side).tail := by
  cases move_of_next hstep with
  | callEnqueue t item idle => cases side <;> rfl
  | callDequeue t idle => cases side <;> rfl
  | run t access =>
      have hstore : ¬(y.pcs t).atStore side := fun h => hno ⟨t, rfl, h⟩
      generalize hpc : y.pcs t = p at access hstore
      cases side <;> cases access <;> first | rfl | exact absurd trivial hstore

theorem tail_stored {side : Side} {y y' : System τ α} (h : Tickets y) {t : τ} (hstep : y.next (.run t) = some y')
    (hstore : (y.pcs t).atStore side) :
    (y.window side).held t = some (y.window side).tail ∧ (y'.window side).tail = (y.window side).tail + 1 ∧
      (y'.window side).head = (y.window side).head := by
  have hown := h.threads t
  cases move_of_next hstep with
  | run _ access =>
      generalize hpc : y.pcs t = p at access hstore hown
      cases side with
      | producers =>
          cases access <;> first | exact hstore.elim | skip
          have htail := hown.1.trans (hown.2 ▸ h.prodTail.symm)
          exact ⟨by simp [System.window, hpc, Pc.heldWord, Pc.reservedWord, htail], by rw [htail]; rfl, rfl⟩
      | consumers =>
          cases access <;> first | exact hstore.elim | skip
          have htail := hown.1.trans (hown.2 ▸ h.consTail.symm)
          exact ⟨by simp [System.window, hpc, Pc.heldWord, Pc.takenWord, htail], by rw [htail]; rfl, rfl⟩

/-- In every reachable state of every interleaving of fewer than `2 ^ 32` threads a side, both sides publish. -/
theorem publication {threads : Side → Finset τ} (hcard : ∀ side, (threads side).card < 2 ^ 32) {y : System τ α}
    (h : (machine τ α).Reachable (CalledBy threads) y) (side : Side) : Publishes side y := by
  have hmanned := manned_of_reachable hcard h
  have hordered := hmanned.tickets.ordered side
  have hfit := hmanned.line_fits hcard side
  have hexact : (y.window side).Exact := hmanned.tickets.window_eq side ▸ hordered.window_exact hfit
  exact {
    exact := hexact
    turn := hexact.existsUnique_turn
    wait := fun t y' => wait_passes_iff
    progress := fun hne => by
      obtain ⟨t, ht, -⟩ := hexact.existsUnique_turn hne
      obtain ⟨n, hn, hrun⟩ := turn_progress rfl ht
      exact ⟨t, n, hn.trans (accessesLeft_le side _), hrun⟩
    store := fun l y' hstep ⟨t, hl, hstore⟩ => by
      subst hl
      obtain ⟨hheld, htail, hhead⟩ := tail_stored hmanned.tickets hstep hstore
      refine ⟨fun hempty => ?_, htail, hhead⟩
      obtain ⟨i, hi, -⟩ := hexact.bounds hheld
      rw [hempty, BitVec.sub_self] at hi
      exact Nat.not_lt_zero i hi
    kept := fun l y' => tail_kept
    not_passed := ⟨hmanned.tickets.window_eq side, hordered.tail_le_head, hfit⟩ }

instance (threads : Side → Finset τ) (y : System τ α) : (l : Label τ α) → Decidable (CalledBy threads y l)
  | .callEnqueue t _ => inferInstanceAs (Decidable (t ∈ threads .producers))
  | .callDequeue t => inferInstanceAs (Decidable (t ∈ threads .consumers))
  | .run _ => .isTrue trivial

/-- Two producers on the ring of two slots, the second of them refused while the first has yet to store. -/
theorem publication_pair : ∃ y : System Nat Nat, ∃ t, y.pcs 0 = .enqStore 7 0 ∧
    (y.window .producers).held t = some (y.window .producers).tail := by
  have hrun : ((machine Nat Nat).replay (CalledBy fun _ => {0, 1}) (.fresh pairRing)
      ([.callEnqueue 0 7, .callEnqueue 1 8] ++ List.replicate 3 (.run 0) ++ List.replicate 2 (.run 1))).map
      (fun y => (y.pcs 0, y.ring.prod.head, y.ring.prod.tail)) = some (.enqStore 7 0, 1, 0) := by rfl
  obtain ⟨y, hreach, hends⟩ := Machine.Reachable.of_replay pairRing_start _ hrun
  simp only [Prod.mk.injEq] at hends
  have hne : (y.window .producers).tail ≠ (y.window .producers).head := by
    rw [System.window, hends.2.1, hends.2.2]
    exact show (0 : Word) ≠ 1 by decide
  obtain ⟨t, ht, -⟩ := (publication (fun _ => by decide) hreach .producers).turn hne
  exact ⟨y, t, hends.1, ht⟩

end SimpDserver.NetRing
