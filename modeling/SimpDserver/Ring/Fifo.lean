import SimpDserver.Lib.BoundedQueue
import SimpDserver.Ring.ManyConsumers

/-!
# One thread's ring is a bounded queue

Calls made one after another do not meet each other halfway, so head and tail agree on each side between
calls, and a call runs through its accesses without a failed compare-and-set or a round of waiting. The
ring then holds the items between the two counters, one slot each, and behaves as a queue with one place
less than it has slots.
-/

namespace SimpDserver.NetRing

open Calls

variable {α : Type}

inductive RingCall (α : Type) where
  | enqueue (item : α)
  | dequeue

/-- The value a call returns, if it ends with this access. -/
def Event.ret : Event α → Option Int
  | .enqFull | .deqEmpty => some (-1)
  | .enqPublished | .deqReleased _ => some 0
  | _ => none

/-- `*item` after an access: only the fetch of `dequeue` stores it. -/
def Event.output (ring : Word → Option α) (out : Option α) : Event α → Option α
  | .deqFetched slot => ring slot
  | _ => out

/-- A call from `p` to its return, with nobody else on the ring, for at most `fuel` accesses: the ring, the
return value, and the caller's variable `*item`. -/
def Pc.alone : (fuel : Nat) → Ring α → (out : Option α) → Pc α → Option (Ring α × Int × Option α)
  | 0, _, _, _ => none
  | fuel + 1, r, out, p => do
      let (r', p', e) ← p.step r
      let out := e.output r.ring out
      match e.ret with
      | some ret => some (r', ret, out)
      | none => Pc.alone fuel r' out p'

theorem Pc.alone_access {r r' : Ring α} {p p' : Pc α} {e : Event α} (access : Access r p r' p' e)
    (hret : e.ret = none) {fuel : Nat} {out : Option α} :
    Pc.alone (fuel + 1) r out p = Pc.alone fuel r' (e.output r.ring out) p' := by
  simp only [Pc.alone, access.step, Option.bind_eq_bind, Option.bind_some, hret]

theorem Pc.alone_return {r r' : Ring α} {p p' : Pc α} {e : Event α} (access : Access r p r' p' e) {ret : Int}
    (hret : e.ret = some ret) {fuel : Nat} {out : Option α} :
    Pc.alone (fuel + 1) r out p = some (r', ret, e.output r.ring out) := by
  simp only [Pc.alone, access.step, Option.bind_eq_bind, Option.bind_some, hret]

/-- `net_ring_common_module_enqueue` -/
def enqueue (fuel : Nat) (r : Ring α) (item : α) (out : Option α) : Option (Ring α × Int × Option α) :=
  Pc.alone fuel r out (.enqLoadHead item)

/-- `net_ring_common_module_dequeue` -/
def dequeue (fuel : Nat) (r : Ring α) (out : Option α) : Option (Ring α × Int × Option α) :=
  Pc.alone fuel r out .deqLoadTail

/-- A ring and one caller's variable. A call answers its return value and what is then in the variable. -/
def ringObject (fuel : Nat) : Object (Ring α × Option α) (RingCall α) (Int × Option α) where
  call s
    | .enqueue item => (enqueue fuel s.1 item s.2).map fun x => ((x.1, x.2.2), x.2)
    | .dequeue => (dequeue fuel s.1 s.2).map fun x => ((x.1, x.2.2), x.2)

/-- What the functions are for: a queue of limited length. -/
def queueObject (α : Type) (capacity : Nat) :
    Object (BoundedQueue α capacity × Option α) (RingCall α) (Int × Option α) where
  call s
    | .enqueue item =>
        match s.1.put item with
        | some q => some ((q, s.2), 0, s.2)
        | none => some (s, -1, s.2)
    | .dequeue =>
        match s.1.take with
        | some (item, q) => some ((q, some item), 0, some item)
        | none => some (s, -1, s.2)

/-- The items between the tails, the oldest first. -/
def Ring.queued (r : Ring α) : List (Option α) :=
  (List.range (r.prod.tail - r.cons.tail).toNat).map fun i =>
    r.ring ((r.cons.tail + BitVec.ofNat 32 i) &&& r.prod.mask)

/-- The ring of `2 ^ k` slots holds these items: on each side head and tail agree, and the items are in
the slots from `first` on. -/
structure Represents (k first : Nat) (r : Ring α) (items : List α) : Prop where
  mask : r.prod.mask = maskOf k
  prodHead : r.prod.head = BitVec.ofNat 32 (first + items.length)
  prodTail : r.prod.tail = BitVec.ofNat 32 (first + items.length)
  consHead : r.cons.head = BitVec.ofNat 32 first
  consTail : r.cons.tail = BitVec.ofNat 32 first
  filled : ∀ i (h : i < items.length), r.ring (slotOf (maskOf k) (first + i)) = some items[i]

section

variable {k first : Nat} {r : Ring α} {items : List α}

theorem Represents.queued (h : Represents k first r items) (hlength : items.length < 2 ^ 32) :
    r.queued = items.map some := by
  have hcount : (r.prod.tail - r.cons.tail).toNat = items.length := by
    rw [h.prodTail, h.consTail, BitVec.ofNat_add, BitVec.add_comm, BitVec.add_sub_cancel, BitVec.toNat_ofNat,
      Nat.mod_eq_of_lt hlength]
  rw [Ring.queued, hcount]
  apply List.ext_getElem
  · simp
  · intro i hi hi'
    rw [List.length_map] at hi'
    have hslot := h.filled i hi'
    rw [slotOf, BitVec.ofNat_add] at hslot
    simpa [h.consTail, h.mask] using hslot

theorem Represents.full_iff (h : Represents k first r items) (hk : k ≤ 31) (hfits : items.length ≤ 2 ^ k - 1) :
    r.cons.tail - r.prod.head + r.prod.mask = 0 ↔ items.length = 2 ^ k - 1 := by
  have hpow := Nat.pow_le_pow_right (show 0 < 2 by omega) hk
  rw [h.consTail, h.prodHead, h.mask, maskOf, full_test_iff]
  constructor
  · intro hmod
    have hcount : (2 ^ k - 1) % 2 ^ 32 = items.length % 2 ^ 32 := Nat.ModEq.add_left_cancel' first hmod
    rw [Nat.mod_eq_of_lt (by omega), Nat.mod_eq_of_lt (by omega)] at hcount
    exact hcount.symm
  · intro hcount
    rw [hcount]

theorem Represents.empty_iff (h : Represents k first r items) (hlength : items.length < 2 ^ 32) :
    r.prod.tail - r.cons.head = 0 ↔ items = [] := by
  rw [h.prodTail, h.consHead, empty_test_iff, ← List.length_eq_zero_iff]
  constructor
  · intro hmod
    have hcount : items.length % 2 ^ 32 = 0 % 2 ^ 32 := Nat.ModEq.add_left_cancel' first hmod
    rwa [Nat.mod_eq_of_lt hlength] at hcount
  · intro hcount
    rw [hcount, Nat.add_zero]

theorem Represents.enqueue_full (h : Represents k first r items) (hk : k ≤ 31) (hfull : items.length = 2 ^ k - 1)
    (item : α) (out : Option α) {fuel : Nat} (hfuel : 2 ≤ fuel) : enqueue fuel r item out = some (r, -1, out) := by
  obtain ⟨f, rfl⟩ := Nat.exists_eq_add_of_le' hfuel
  calc enqueue (f + 2) r item out
    _ = Pc.alone (f + 1) r out (.enqLoadTail item r.prod.head) := Pc.alone_access (.enqSawHead item) rfl
    _ = some (r, -1, out) := Pc.alone_return (.enqFull item _ ((h.full_iff hk hfull.le).mpr hfull)) rfl

/-- With a place left, an item goes into the slot behind the last. -/
theorem Represents.enqueue_room (h : Represents k first r items) (hk : k ≤ 31) (hroom : items.length < 2 ^ k - 1)
    (item : α) (out : Option α) {fuel : Nat} (hfuel : 6 ≤ fuel) :
    ∃ r', enqueue fuel r item out = some (r', 0, out) ∧ Represents k first r' (items ++ [item]) := by
  obtain ⟨f, rfl⟩ := Nat.exists_eq_add_of_le' hfuel
  have hpow := Nat.pow_le_pow_right (show 0 < 2 by omega) hk
  have htest := mt (h.full_iff hk hroom.le).mp hroom.ne
  let slot := r.prod.head &&& r.prod.mask
  let r₁ : Ring α := { r with prod := { r.prod with head := r.prod.head + 1 } }
  let r₂ : Ring α := { r₁ with ring := Function.update r.ring slot (some item) }
  have hturn : r₂.prod.tail = r.prod.head := h.prodTail.trans h.prodHead.symm
  refine ⟨{ r₂ with prod := { r₂.prod with tail := r.prod.head + 1 } }, ?_, ?_⟩
  · calc enqueue (f + 6) r item out
      _ = Pc.alone (f + 5) r out (.enqLoadTail item r.prod.head) := Pc.alone_access (.enqSawHead item) rfl
      _ = Pc.alone (f + 4) r out (.enqCmpset item r.prod.head) := Pc.alone_access (.enqAdmitted item _ htest) rfl
      _ = Pc.alone (f + 3) r₁ out (.enqStore item r.prod.head) := Pc.alone_access (.enqReserved item _ rfl) rfl
      _ = Pc.alone (f + 2) r₂ out (.enqWait item r.prod.head) := Pc.alone_access (.enqStored item _) rfl
      _ = Pc.alone (f + 1) r₂ out (.enqPublish item r.prod.head) := Pc.alone_access (.enqTurn item _ hturn) rfl
      _ = some (_, 0, out) := Pc.alone_return (.enqPublished item _) rfl
  · have hnext : r.prod.head + 1 = BitVec.ofNat 32 (first + (items ++ [item]).length) := by
      rw [h.prodHead, ofNat_add_one, List.length_append, List.length_singleton, Nat.add_assoc]
    refine ⟨h.mask, hnext, hnext, h.consHead, h.consTail, fun i hi => ?_⟩
    have hslot : r.prod.head &&& r.prod.mask = slotOf (maskOf k) (first + items.length) := by
      rw [h.prodHead, h.mask, slotOf]
    rw [List.length_append, List.length_singleton] at hi
    rcases Nat.lt_succ_iff_lt_or_eq.mp hi with hlt | rfl
    · have hother : slotOf (maskOf k) (first + i) ≠ r.prod.head &&& r.prod.mask := by
        intro heq
        have := eq_of_slotOf_eq (by omega) (heq.trans hslot) (by omega) (by omega)
        omega
      rw [List.getElem_append_left hlt]
      exact (Function.update_of_ne hother ..).trans (h.filled i hlt)
    · have hnew : r₂.ring (slotOf (maskOf k) (first + items.length)) = some item := hslot ▸ Function.update_self ..
      simpa using hnew

theorem Represents.dequeue_empty (h : Represents k first r []) (out : Option α) {fuel : Nat} (hfuel : 2 ≤ fuel) :
    dequeue fuel r out = some (r, -1, out) := by
  obtain ⟨f, rfl⟩ := Nat.exists_eq_add_of_le' hfuel
  calc dequeue (f + 2) r out
    _ = Pc.alone (f + 1) r out (.deqLoadHead r.prod.tail) := Pc.alone_access .deqSawTail rfl
    _ = some (r, -1, out) := Pc.alone_return (.deqEmpty _ ((h.empty_iff (Nat.two_pow_pos 32)).mpr rfl)) rfl

/-- The oldest item is delivered, and the next slot is then the first. -/
theorem Represents.dequeue_item {item : α} (h : Represents k first r (item :: items)) (hk : k ≤ 31)
    (hfits : (item :: items).length ≤ 2 ^ k - 1) (out : Option α) {fuel : Nat} (hfuel : 6 ≤ fuel) :
    ∃ r', dequeue fuel r out = some (r', 0, some item) ∧ Represents k (first + 1) r' items := by
  obtain ⟨f, rfl⟩ := Nat.exists_eq_add_of_le' hfuel
  have hpow := Nat.pow_le_pow_right (show 0 < 2 by omega) hk
  have htest := mt (h.empty_iff (by omega)).mp (List.cons_ne_nil item items)
  have hfetch : r.ring (r.cons.head &&& r.prod.mask) = some item := by
    have := h.filled 0 (Nat.zero_lt_succ _)
    rwa [slotOf, Nat.add_zero, ← h.consHead, ← h.mask] at this
  have hlength : first + (item :: items).length = first + 1 + items.length := by
    rw [List.length_cons]
    omega
  let r₁ : Ring α := { r with cons := { r.cons with head := r.cons.head + 1 } }
  have hturn : r₁.cons.tail = r.cons.head := h.consTail.trans h.consHead.symm
  refine ⟨{ r₁ with cons := { r₁.cons with tail := r.cons.head + 1 } }, ?_, ?_⟩
  · calc dequeue (f + 6) r out
      _ = Pc.alone (f + 5) r out (.deqLoadHead r.prod.tail) := Pc.alone_access .deqSawTail rfl
      _ = Pc.alone (f + 4) r out (.deqCmpset r.cons.head) := Pc.alone_access (.deqAdmitted _ htest) rfl
      _ = Pc.alone (f + 3) r₁ out (.deqFetch r.cons.head) := Pc.alone_access (.deqTaken _ rfl) rfl
      _ = Pc.alone (f + 2) r₁ (r.ring (r.cons.head &&& r.prod.mask)) (.deqWait r.cons.head
          (r.ring (r.cons.head &&& r.prod.mask))) := Pc.alone_access (.deqFetched _) rfl
      _ = Pc.alone (f + 1) r₁ (some item) (.deqPublish r.cons.head (some item)) := by
          rw [hfetch]
          exact Pc.alone_access (.deqTurn _ _ hturn) rfl
      _ = some (_, 0, some item) := Pc.alone_return (.deqReleased _ _) rfl
  · have hnext : r.cons.head + 1 = BitVec.ofNat 32 (first + 1) := by rw [h.consHead, ofNat_add_one]
    refine ⟨h.mask, hlength ▸ h.prodHead, hlength ▸ h.prodTail, hnext, hnext, fun i hi => ?_⟩
    have hslot := h.filled (i + 1) (Nat.succ_lt_succ hi)
    rwa [List.getElem_cons_succ, ← Nat.add_assoc, Nat.add_right_comm] at hslot

end

/-! ### The refinement -/

/-- The ring and the queue hold the same items, and the caller's variable the same pointer. -/
def SameItems (k : Nat) (s : Ring α × Option α) (b : BoundedQueue α (2 ^ k - 1) × Option α) : Prop :=
  (∃ first, Represents k first s.1 b.1.items) ∧ s.2 = b.2

/-- Call by call, the ring answers as the queue does. -/
theorem ringObject_refines {k : Nat} (hk : k ≤ 31) {fuel : Nat} (hfuel : 6 ≤ fuel) :
    Refines (ringObject fuel) (queueObject α (2 ^ k - 1)) (SameItems k) := by
  intro ⟨r, out⟩ ⟨q, v⟩ call ⟨q', v'⟩ answer hsame hcall
  obtain ⟨⟨first, hr⟩, hout⟩ := hsame
  dsimp only at hr hout
  subst hout
  cases call with
  | enqueue item =>
      simp only [queueObject] at hcall
      cases hput : q.put item with
      | none =>
          rw [hput] at hcall
          cases hcall
          have hret := hr.enqueue_full hk (BoundedQueue.put_eq_none hput) item out (show 2 ≤ fuel by omega)
          exact ⟨(r, out), by simp only [ringObject, hret, Option.map_some], ⟨first, hr⟩, rfl⟩
      | some q₁ =>
          rw [hput] at hcall
          cases hcall
          obtain ⟨hroom, hitems⟩ := BoundedQueue.put_eq_some hput
          obtain ⟨r', hret, hr'⟩ := hr.enqueue_room hk hroom item out hfuel
          exact ⟨(r', out), by simp only [ringObject, hret, Option.map_some], ⟨first, hitems ▸ hr'⟩, rfl⟩
  | dequeue =>
      simp only [queueObject] at hcall
      cases htake : q.take with
      | none =>
          rw [htake] at hcall
          cases hcall
          have hret := (BoundedQueue.take_eq_none htake ▸ hr).dequeue_empty out (show 2 ≤ fuel by omega)
          exact ⟨(r, out), by simp only [ringObject, hret, Option.map_some], ⟨first, hr⟩, rfl⟩
      | some taken =>
          obtain ⟨item, q₁⟩ := taken
          rw [htake] at hcall
          cases hcall
          have hitems := BoundedQueue.take_eq_some htake
          obtain ⟨r', hret, hr'⟩ := (hitems ▸ hr).dequeue_item hk (hitems ▸ q.fits) out hfuel
          exact ⟨(r', some item), by simp only [ringObject, hret, Option.map_some], ⟨first + 1, hr'⟩, rfl⟩

theorem queueObject_isSome {capacity : Nat} (s : BoundedQueue α capacity × Option α) (call : RingCall α) :
    ((queueObject α capacity).call s call).isSome := by
  cases call with
  | enqueue item => cases hput : s.1.put item <;> simp only [queueObject, hput, Option.isSome_some]
  | dequeue => cases htake : s.1.take <;> simp only [queueObject, htake, Option.isSome_some]

/-- A ring made for `nem` items is a queue with one place less than the least power of two above `nem` and one,
whatever calls one thread makes on it. -/
theorem ring_is_queue {malloc : BitVec 64 → Bool} {junk : Word → Option α} {rounds : Nat} {nem : Word}
    {ring : Ring α} (hnem : nem.toNat < 2 ^ 30) (h : create malloc junk rounds nem = some ring) :
    ∃ k, max nem.toNat 1 < 2 ^ k ∧ (∀ j, max nem.toNat 1 < 2 ^ j → k ≤ j) ∧ nem.toNat ≤ 2 ^ k - 1 ∧
      ∀ (calls : List (RingCall α)) (out : Option α) (fuel : Nat), 6 ≤ fuel →
        ∃ ring' q out' answers,
          (queueObject α (2 ^ k - 1)).run (.empty, out) calls = some ((q, out'), answers) ∧
          (ringObject fuel).run (ring, out) calls = some ((ring', out'), answers) ∧
          ring'.queued = q.items.map some := by
  obtain ⟨size, hsize, -, hmask, ⟨hph, hpt⟩, hch, hct⟩ := create_eq_some h
  obtain ⟨k, hk, rfl, habove, hleast⟩ := alignPow2_least hsize (by omega)
  have hpow := Nat.pow_le_pow_right (show 0 < 2 by omega) hk
  refine ⟨k, habove, hleast, by omega, fun calls out fuel hfuel => ?_⟩
  have hempty : SameItems k (ring, out) (.empty, out) :=
    ⟨⟨0, hmask.trans (ofNat_sub_one_eq_maskOf k), hph, hpt, hch, hct, fun i hi => absurd hi (Nat.not_lt_zero i)⟩, rfl⟩
  obtain ⟨⟨q, out'⟩, answers, hqueue⟩ := Object.run_isSome queueObject_isSome (.empty, out) calls
  obtain ⟨⟨ring', out''⟩, hring, ⟨first, hr⟩, hout⟩ := (ringObject_refines hk hfuel).run hempty hqueue
  dsimp only at hr hout
  subst hout
  have hfits := q.fits
  exact ⟨ring', q, out'', answers, hqueue, hring, hr.queued (by omega)⟩

/-- The ring of two slots, filled, overfilled, emptied and emptied once more. -/
theorem ring_is_queue_pair : ∃ ring', (ringObject 6).run (pairRing, none)
    [.enqueue 7, .enqueue 8, .dequeue, .dequeue] =
      some ((ring', some 7), [(0, none), (-1, none), (0, some 7), (-1, some 7)]) := by
  have hcreate : create (fun _ => true) (fun _ => none) 1 0 = some pairRing := (Option.some_get _).symm
  obtain ⟨k, habove, hleast, -, hcalls⟩ := ring_is_queue (by decide) hcreate
  obtain rfl : k = 1 := le_antisymm (hleast 1 (by decide)) (Nat.pos_of_ne_zero fun hk => by simp [hk] at habove)
  obtain ⟨ring', q, out', answers, hqueue, hring, -⟩ :=
    hcalls [.enqueue 7, .enqueue 8, .dequeue, .dequeue] none 6 le_rfl
  have hanswers : (queueObject Nat (2 ^ 1 - 1)).run (.empty, none) [.enqueue 7, .enqueue 8, .dequeue, .dequeue] =
      some ((.empty, some 7), [(0, none), (-1, none), (0, some 7), (-1, some 7)]) := rfl
  obtain ⟨⟨rfl, rfl⟩, rfl⟩ := by simpa only [Option.some.injEq, Prod.mk.injEq] using hqueue.symm.trans hanswers
  exact ⟨ring', hring⟩

end SimpDserver.NetRing
