import Mathlib.Data.BitVec
import SimpDserver.Ring.Tickets

/-!
# Delivery

While no consumer tests for emptiness with a `prod.tail` that `cons.head` has already passed, the
ring keeps its promises: `taken ≤ published ≤ reserved ≤ released + mask`, every published and
unreleased item sits in its own slot, and the deliveries are the reservations in order. The
invariant `Sound` says so of the observer's history, the slots and every thread's registers.
-/

namespace SimpDserver.NetRing

open Transition

variable {τ α : Type}

/-- The slot of the `n`-th reservation. -/
def slotOf (mask : Word) (n : Nat) : Word := BitVec.ofNat 32 n &&& mask

/-- The mask of a ring of `2 ^ k` slots. -/
def maskOf (k : Nat) : Word := BitVec.ofNat 32 (2 ^ k - 1)

theorem toNat_slotOf_maskOf {k : Nat} (hk : k ≤ 32) (n : Nat) : (slotOf (maskOf k) n).toNat = n % 2 ^ k := by
  have hmask : (2 ^ k - 1) % 2 ^ 32 = 2 ^ k - 1 := by
    apply Nat.mod_eq_of_lt
    have := Nat.pow_le_pow_right (show 0 < 2 by omega) hk
    have := Nat.two_pow_pos k
    omega
  rw [slotOf, maskOf, BitVec.toNat_and, BitVec.toNat_ofNat, BitVec.toNat_ofNat, hmask,
    Nat.and_two_pow_sub_one_eq_mod, Nat.mod_mod_of_dvd _ (pow_dvd_pow 2 hk)]

theorem slotOf_maskOf_inj {k : Nat} (hk : k ≤ 32) {n m : Nat} :
    slotOf (maskOf k) n = slotOf (maskOf k) m ↔ n % 2 ^ k = m % 2 ^ k := by
  rw [← BitVec.toNat_inj, toNat_slotOf_maskOf hk, toNat_slotOf_maskOf hk]

theorem eq_of_slotOf_eq {k : Nat} (hk : k ≤ 32) {n m : Nat} (hslot : slotOf (maskOf k) n = slotOf (maskOf k) m)
    (hnm : n < m + 2 ^ k) (hmn : m < n + 2 ^ k) : n = m := by
  rw [slotOf_maskOf_inj hk] at hslot
  rcases Nat.le_total n m with h | h
  · obtain ⟨d, rfl⟩ := Nat.exists_eq_add_of_le h
    have hd : d % 2 ^ k = 0 := Nat.ModEq.add_left_cancel' n (show n + d ≡ n + 0 [MOD 2 ^ k] from hslot.symm)
    rw [Nat.mod_eq_of_lt (by omega)] at hd
    omega
  · obtain ⟨d, rfl⟩ := Nat.exists_eq_add_of_le h
    have hd : d % 2 ^ k = 0 := Nat.ModEq.add_left_cancel' m (show m + d ≡ m + 0 [MOD 2 ^ k] from hslot)
    rw [Nat.mod_eq_of_lt (by omega)] at hd
    omega

/-- What the registers of thread `t` at `p` say about the ring, for a ring of `mask + 1` slots. -/
def RegOk (h : History τ α) (mask : Nat) (t : τ) : Pc α → Prop
  | .enqLoadTail _ w =>
      w = BitVec.ofNat 32 (h.headSeen t) ∧ h.headSeen t ≤ h.reserved.length ∧
        h.inUseSeen t ≤ mask ∧ h.headSeen t ≤ h.released + h.inUseSeen t
  | .enqCmpset _ w =>
      w = BitVec.ofNat 32 (h.headSeen t) ∧ h.headSeen t ≤ h.reserved.length ∧
        h.headSeen t < h.released + mask
  | .enqStore item _ | .enqWait item _ | .enqPublish item _ => h.reserved[h.ticket t]? = some item
  | .deqLoadHead w => w = BitVec.ofNat 32 (h.tailSeen t) ∧ h.tailSeen t ≤ h.published
  | .deqCmpset w =>
      w = BitVec.ofNat 32 (h.headSeen t) ∧ h.headSeen t ≤ h.taken ∧ h.headSeen t < h.published
  | .deqWait _ item | .deqPublish _ item =>
      h.source t = some (h.ticket t) ∧ ∃ x, item = some x ∧ h.reserved[h.ticket t]? = some x
  | _ => True

/-- A producer between reserving and publishing: its item is not in any slot before the store, and
in its own slot after. -/
def SlotOk (ring : Word → Option α) (h : History τ α) (mask : Word) (t : τ) : Pc α → Prop
  | .enqStore _ _ => ∀ slot, h.occupant slot ≠ some (h.ticket t)
  | .enqWait item _ | .enqPublish item _ =>
      ring (slotOf mask (h.ticket t)) = some item ∧
        h.occupant (slotOf mask (h.ticket t)) = some (h.ticket t)
  | _ => True

/-- The invariant of a ring of `2 ^ k` slots. -/
structure Sound (k : Nat) (y : System τ α) : Prop where
  tickets : Tickets y
  size : y.ring.prod.size = BitVec.ofNat 32 (2 ^ k)
  mask : y.ring.prod.mask = maskOf k
  taken_le : y.history.taken ≤ y.history.published
  room : y.history.reserved.length ≤ y.history.released + (2 ^ k - 1)
  regs : ∀ t, RegOk y.history (2 ^ k - 1) t (y.pcs t)
  slots : ∀ t, SlotOk y.ring.ring y.history (maskOf k) t (y.pcs t)
  filled : ∀ n, y.history.released ≤ n → n < y.history.published →
    y.ring.ring (slotOf (maskOf k) n) = y.history.reserved[n]? ∧
      y.history.occupant (slotOf (maskOf k) n) = some n
  occupied : ∀ slot n, y.history.occupant slot = some n →
    n < y.history.reserved.length ∧ slot = slotOf (maskOf k) n
  stored : y.history.stored = List.range y.history.published
  delivered : y.history.delivered =
    (List.range y.history.released).map fun n => (some n, y.history.reserved[n]?)
  lost : y.history.lost = []
  refused : ∀ n ∈ y.history.refused, n.1 = 2 ^ k - 1 ∨ 2 ^ 32 - (2 ^ k - 1) ≤ n.2

/-- No consumer reads `cons.head` after it passed the `prod.tail` that consumer tests it against. -/
def FreshTail (y : System τ α) : Label τ α → Prop
  | .run t =>
      match y.pcs t with
      | .deqLoadHead _ => y.history.taken ≤ y.history.tailSeen t
      | _ => True
  | _ => True

variable {k : Nat} {y : System τ α}

theorem Sound.published_le (h : Sound k y) : y.history.published ≤ y.history.reserved.length :=
  h.tickets.prodOrdered.tail_le_head

theorem Sound.released_le (h : Sound k y) : y.history.released ≤ y.history.taken :=
  h.tickets.consOrdered.tail_le_head

theorem Sound.fits (h : Sound k y) (hk : k ≤ 31) : Fits y where
  prod := by
    have := Nat.pow_le_pow_right (show 0 < 2 by omega) hk
    have := h.room
    have := h.released_le
    have := h.taken_le
    omega
  cons := by
    have := Nat.pow_le_pow_right (show 0 < 2 by omega) hk
    have := h.room
    have := h.published_le
    have := h.taken_le
    omega

/-! ### Comparing wrapped counters -/

theorem eq_of_ofNat_eq {a b : Nat} (hle : a ≤ b) (hnear : b - a < 2 ^ 32)
    (h : BitVec.ofNat 32 b = BitVec.ofNat 32 a) : a = b := by
  rw [ofNat_eq_iff] at h
  omega

/-- The full test compares the two counters modulo the width. -/
theorem full_test_iff {a b c : Nat} :
    BitVec.ofNat 32 a - BitVec.ofNat 32 b + BitVec.ofNat 32 c = 0 ↔ (a + c) % 2 ^ 32 = b % 2 ^ 32 := by
  rw [← ofNat_eq_iff, BitVec.ofNat_add, ← sub_eq_zero (a := BitVec.ofNat 32 a + BitVec.ofNat 32 c),
    sub_add_eq_add_sub]

theorem empty_test_iff {a b : Nat} :
    BitVec.ofNat 32 a - BitVec.ofNat 32 b = 0 ↔ a % 2 ^ 32 = b % 2 ^ 32 := by
  rw [← ofNat_eq_iff, sub_eq_zero]

/-! ### Frame: the accesses of other threads -/

/-- `h'` is `h` after accesses of threads other than `u`. -/
structure Later (u : τ) (h h' : History τ α) : Prop where
  reserved : h.reserved <+: h'.reserved
  published : h.published ≤ h'.published
  taken : h.taken ≤ h'.taken
  released : h.released ≤ h'.released
  ticket : h'.ticket u = h.ticket u
  headSeen : h'.headSeen u = h.headSeen u
  tailSeen : h'.tailSeen u = h.tailSeen u
  inUseSeen : h'.inUseSeen u = h.inUseSeen u
  source : h'.source u = h.source u

theorem Later.getElem? {u : τ} {h h' : History τ α} (hl : Later u h h') {n : Nat} {x : α}
    (hx : h.reserved[n]? = some x) : h'.reserved[n]? = some x := by
  obtain ⟨rest, hrest⟩ := hl.reserved
  rw [← hrest, List.getElem?_append_left (List.getElem?_eq_some_iff.mp hx).1, hx]

theorem RegOk.later {u : τ} {h h' : History τ α} {mask : Nat} {p : Pc α} (hl : Later u h h')
    (hok : RegOk h mask u p) : RegOk h' mask u p := by
  have hlen := hl.reserved.length_le
  have hpub := hl.published
  have htak := hl.taken
  have hrel := hl.released
  cases p with
  | enqLoadTail item w =>
      simp only [RegOk, hl.headSeen, hl.inUseSeen] at hok ⊢
      exact ⟨hok.1, by omega, hok.2.2.1, by omega⟩
  | enqCmpset item w =>
      simp only [RegOk, hl.headSeen] at hok ⊢
      exact ⟨hok.1, by omega, by omega⟩
  | enqStore | enqWait | enqPublish =>
      simp only [RegOk, hl.ticket] at hok ⊢
      exact hl.getElem? hok
  | deqLoadHead w =>
      simp only [RegOk, hl.tailSeen] at hok ⊢
      exact ⟨hok.1, by omega⟩
  | deqCmpset w =>
      simp only [RegOk, hl.headSeen] at hok ⊢
      exact ⟨hok.1, by omega, by omega⟩
  | deqWait w item | deqPublish w item =>
      simp only [RegOk, hl.ticket, hl.source] at hok ⊢
      obtain ⟨hsource, x, hitem, hx⟩ := hok
      exact ⟨hsource, x, hitem, hl.getElem? hx⟩
  | _ => trivial

/-! ### What the registers of a thread tell -/

theorem Sound.ticket_bounds (h : Sound k y) {t : τ} {w : Word} (hw : (y.pcs t).reservedWord = some w) :
    y.history.published ≤ y.history.ticket t ∧ y.history.ticket t < y.history.reserved.length :=
  h.tickets.prodOrdered.bounds (t := t) (by simp [System.prodLine, hw])

theorem Sound.taken_bounds (h : Sound k y) {t : τ} {w : Word} (hw : (y.pcs t).takenWord = some w) :
    y.history.released ≤ y.history.ticket t ∧ y.history.ticket t < y.history.taken :=
  h.tickets.consOrdered.bounds (t := t) (by simp [System.consLine, hw])

/-- A producer turned away found the ring full when it loaded `prod.head`, unless nearly `2 ^ 32`
reservations were made since. -/
theorem Sound.refused_of_full (h : Sound k y) (hk : k ≤ 31) {t : τ} {item : α} {w : Word}
    (hpc : y.pcs t = .enqLoadTail item w) (full : y.ring.cons.tail - w + y.ring.prod.mask = 0) :
    y.history.inUseSeen t = 2 ^ k - 1 ∨
      2 ^ 32 - (2 ^ k - 1) ≤ y.history.reserved.length - y.history.headSeen t := by
  have hreg := h.regs t
  rw [hpc] at hreg
  obtain ⟨rfl, hseen, huse, hrel⟩ := hreg
  rw [h.tickets.consTail, h.mask, maskOf, full_test_iff] at full
  have := Nat.pow_le_pow_right (show 0 < 2 by omega) hk
  have := h.released_le
  have := h.taken_le
  have := h.published_le
  rcases Nat.lt_or_ge (y.history.headSeen t) y.history.released with hlt | hge
  · right
    omega
  · left
    obtain ⟨d, hd⟩ := Nat.exists_eq_add_of_le hge
    rw [hd] at full
    have hmod : (2 ^ k - 1) % 2 ^ 32 = d % 2 ^ 32 :=
      Nat.ModEq.add_left_cancel' _ (show y.history.released + (2 ^ k - 1) ≡ y.history.released + d [MOD 2 ^ 32] from full)
    omega

/-- A producer let through saw room behind the head it holds. -/
theorem Sound.room_of_admitted (h : Sound k y) {t : τ} {item : α} {w : Word}
    (hpc : y.pcs t = .enqLoadTail item w) (room : y.ring.cons.tail - w + y.ring.prod.mask ≠ 0) :
    w = BitVec.ofNat 32 (y.history.headSeen t) ∧ y.history.headSeen t ≤ y.history.reserved.length ∧
      y.history.headSeen t < y.history.released + (2 ^ k - 1) := by
  have hreg := h.regs t
  rw [hpc] at hreg
  obtain ⟨rfl, hseen, huse, hrel⟩ := hreg
  rw [h.tickets.consTail, h.mask, maskOf, ne_eq, full_test_iff] at room
  refine ⟨rfl, hseen, lt_of_le_of_ne (by omega) fun heq => room ?_⟩
  rw [heq]

/-- A consumer let through, with a tail that was not passed yet, saw an item. -/
theorem Sound.item_of_admitted (h : Sound k y) {t : τ} {w : Word} (hpc : y.pcs t = .deqLoadHead w)
    (fresh : y.history.taken ≤ y.history.tailSeen t) (busy : w - y.ring.cons.head ≠ 0) :
    y.history.taken < y.history.published := by
  have hreg := h.regs t
  rw [hpc] at hreg
  obtain ⟨rfl, hseen⟩ := hreg
  rw [h.tickets.consHead, ne_eq, empty_test_iff] at busy
  have : y.history.taken ≠ y.history.tailSeen t := fun heq => busy (by rw [heq])
  omega

theorem Sound.head_of_reserved (h : Sound k y) {t : τ} {item : α} {w : Word}
    (hpc : y.pcs t = .enqCmpset item w) (near : y.history.reserved.length - y.history.headSeen t < 2 ^ 32)
    (same : y.ring.prod.head = w) : y.history.headSeen t = y.history.reserved.length := by
  have hreg := h.regs t
  rw [hpc] at hreg
  rw [h.tickets.prodHead, hreg.1] at same
  exact eq_of_ofNat_eq hreg.2.1 near same

theorem Sound.head_of_taken (h : Sound k y) {t : τ} {w : Word} (hpc : y.pcs t = .deqCmpset w)
    (near : y.history.taken - y.history.headSeen t < 2 ^ 32) (same : y.ring.cons.head = w) :
    y.history.headSeen t = y.history.taken := by
  have hreg := h.regs t
  rw [hpc] at hreg
  rw [h.tickets.consHead, hreg.1] at same
  exact eq_of_ofNat_eq hreg.2.1 near same

theorem Sound.fetch (h : Sound k y) {t : τ} {w : Word} (hpc : y.pcs t = .deqFetch w) :
    y.history.occupant (w &&& y.ring.prod.mask) = some (y.history.ticket t) ∧
      ∃ x, y.ring.ring (w &&& y.ring.prod.mask) = some x ∧
        y.history.reserved[y.history.ticket t]? = some x := by
  have hticket := h.tickets.threads t
  rw [hpc] at hticket
  obtain ⟨hlo, hhi⟩ := h.taken_bounds (t := t) (w := w) (by simp [hpc, Pc.takenWord])
  have hpub := lt_of_lt_of_le hhi h.taken_le
  obtain ⟨hslot, hocc⟩ := h.filled _ hlo hpub
  have hx := List.getElem?_eq_getElem (lt_of_lt_of_le hpub h.published_le)
  rw [h.mask, show w &&& maskOf k = slotOf (maskOf k) (y.history.ticket t) by rw [hticket, slotOf]]
  exact ⟨hocc, _, hslot.trans hx, hx⟩

theorem Sound.store_slot (h : Sound k y) {t : τ} {item : α} {w : Word} (hpc : y.pcs t = .enqStore item w) :
    w &&& y.ring.prod.mask = slotOf (maskOf k) (y.history.ticket t) := by
  have hticket := h.tickets.threads t
  rw [hpc] at hticket
  rw [h.mask, hticket, slotOf]

/-- The slot a producer is about to fill holds nothing that is still to be delivered. -/
theorem Sound.store_frees (h : Sound k y) (hk : k ≤ 31) {t : τ} {item : α} {w : Word}
    (hpc : y.pcs t = .enqStore item w) {n : Nat}
    (hocc : y.history.occupant (slotOf (maskOf k) (y.history.ticket t)) = some n) :
    n < y.history.released := by
  have hslots := h.slots t
  rw [hpc] at hslots
  obtain ⟨hlo, hhi⟩ := h.ticket_bounds (t := t) (w := w) (by simp [hpc, Pc.reservedWord])
  obtain ⟨hn, hslot⟩ := h.occupied _ _ hocc
  by_contra hge
  have := h.room
  have := h.taken_le
  have := h.released_le
  have := Nat.two_pow_pos k
  have heq : y.history.ticket t = n :=
    eq_of_slotOf_eq (by omega) hslot (by omega) (by omega)
  exact hslots _ (hocc.trans (congrArg some heq.symm))

variable [DecidableEq τ]

theorem note_later {h : History τ α} {t u : τ} (hu : u ≠ t) (e : Event α) : Later u h (h.note t e) where
  reserved := by cases e <;> simp [History.note]
  published := by cases e <;> simp [History.note]
  taken := by cases e <;> simp [History.note]
  released := by cases e <;> simp [History.note]
  ticket := note_ticket_of_ne hu e
  headSeen := by cases e <;> simp [History.note, Function.update_of_ne hu]
  tailSeen := by cases e <;> simp [History.note, Function.update_of_ne hu]
  inUseSeen := by cases e <;> simp [History.note, Function.update_of_ne hu]
  source := by cases e <;> simp [History.note, Function.update_of_ne hu]

omit [DecidableEq τ] in
theorem slotOk_congr {ring : Word → Option α} {h h' : History τ α} {mask : Word} {u : τ} {p : Pc α}
    (hocc : h'.occupant = h.occupant) (hticket : h'.ticket u = h.ticket u) :
    SlotOk ring h' mask u p ↔ SlotOk ring h mask u p := by
  cases p <;> simp only [SlotOk, hocc, hticket]

/-! ### One access keeps the ring sound -/

theorem Sound.regs_self (h : Sound k y) {t : τ} {r : Ring α} {p : Pc α} {e : Event α}
    (access : Access y.ring (y.pcs t) r p e) (fresh : FreshTail y (.run t)) :
    RegOk (y.history.note t e) (2 ^ k - 1) t p := by
  have hreg := h.regs t
  have hpub := h.published_le
  have htak := h.taken_le
  have hrel := h.released_le
  have hroom := h.room
  generalize hpc : y.pcs t = q at access
  rw [hpc] at hreg
  cases access with
  | enqSawHead item =>
      simp only [RegOk, History.note, Function.update_self]
      exact ⟨h.tickets.prodHead, le_rfl, by omega, by omega⟩
  | enqAdmitted item w room => exact h.room_of_admitted hpc room
  | enqReserved item w same => simp [RegOk, History.note]
  | deqSawTail =>
      simp only [RegOk, History.note, Function.update_self]
      exact ⟨h.tickets.prodTail, le_rfl⟩
  | deqAdmitted w busy =>
      simp only [RegOk, History.note, Function.update_self]
      refine ⟨h.tickets.consHead, le_rfl, h.item_of_admitted hpc ?_ busy⟩
      simpa [FreshTail, hpc] using fresh
  | deqFetched w =>
      obtain ⟨hocc, x, hslot, hx⟩ := h.fetch hpc
      simp only [RegOk, History.note, Function.update_self]
      exact ⟨hocc, x, hslot, hx⟩
  | enqStored | enqWaits | enqTurn | deqWaits | deqTurn => exact hreg
  | _ => trivial

theorem Sound.slots_self (h : Sound k y) {t : τ} {r : Ring α} {p : Pc α} {e : Event α}
    (access : Access y.ring (y.pcs t) r p e) :
    SlotOk r.ring (y.history.note t e) (maskOf k) t p := by
  have hslots := h.slots t
  generalize hpc : y.pcs t = q at access
  rw [hpc] at hslots
  cases access with
  | enqReserved item w same =>
      simp only [SlotOk, History.note, Function.update_self]
      intro slot hocc
      exact absurd (h.occupied _ _ hocc).1 (lt_irrefl _)
  | enqStored item w =>
      simp only [SlotOk, History.note, h.store_slot hpc, Function.update_self, and_self]
  | enqWaits | enqTurn => exact hslots
  | _ => trivial

theorem Sound.slots_of_ne (h : Sound k y) (hk : k ≤ 31) {t u : τ} (hu : u ≠ t) {r : Ring α} {p : Pc α}
    {e : Event α} (access : Access y.ring (y.pcs t) r p e) :
    SlotOk r.ring (y.history.note t e) (maskOf k) u (y.pcs u) := by
  have hother := h.slots u
  generalize hpc : y.pcs t = q at access
  cases access with
  | enqStored item w =>
      obtain ⟨hlo, hhi⟩ := h.ticket_bounds (t := t) (w := w) (by simp [hpc, Pc.reservedWord])
      -- the two tickets differ, and both are out, so their slots differ as well
      have hne : ∀ w', (y.pcs u).reservedWord = some w' → y.history.ticket u ≠ y.history.ticket t := by
        intro w' hw' heq
        refine hu (h.tickets.prodOrdered.unique (n := y.history.ticket t) ?_ ?_)
        · simp [System.prodLine, hw', heq]
        · simp [System.prodLine, hpc, Pc.reservedWord]
      have hslot : ∀ w', (y.pcs u).reservedWord = some w' →
          slotOf (maskOf k) (y.history.ticket u) ≠ slotOf (maskOf k) (y.history.ticket t) := by
        intro w' hw' heq
        obtain ⟨hlo', hhi'⟩ := h.ticket_bounds hw'
        have := h.room
        have := h.released_le
        have := h.taken_le
        have := Nat.two_pow_pos k
        exact hne w' hw' (eq_of_slotOf_eq (by omega) heq (by omega) (by omega))
      rw [h.store_slot hpc]
      cases huc : y.pcs u with
      | enqStore item' w' =>
          rw [huc] at hother
          simp only [SlotOk, History.note]
          intro slot
          by_cases hs : slot = slotOf (maskOf k) (y.history.ticket t)
          · rw [hs, Function.update_self, ne_eq, Option.some.injEq]
            exact (hne w' (by simp [huc, Pc.reservedWord])).symm
          · rw [Function.update_of_ne hs]
            exact hother slot
      | enqWait item' w' | enqPublish item' w' =>
          rw [huc] at hother
          have hs := hslot w' (by simp [huc, Pc.reservedWord])
          simp only [SlotOk, History.note, Function.update_of_ne hs]
          exact hother
      | _ => trivial
  | enqReserved item w same | deqTaken w same =>
      refine (slotOk_congr ?_ (note_ticket_of_ne hu _)).mpr hother
      rfl
  | _ => exact hother

/-- Published items stay in their slots, and a publication adds the item its producer stored. -/
theorem Sound.filled_after (h : Sound k y) (hk : k ≤ 31) {t : τ} {r : Ring α} {p : Pc α} {e : Event α}
    (access : Access y.ring (y.pcs t) r p e) {n : Nat} (hlo : (y.history.note t e).released ≤ n)
    (hhi : n < (y.history.note t e).published) :
    r.ring (slotOf (maskOf k) n) = (y.history.note t e).reserved[n]? ∧
      (y.history.note t e).occupant (slotOf (maskOf k) n) = some n := by
  have hpub := h.published_le
  generalize hpc : y.pcs t = q at access
  cases access with
  | enqReserved item w same =>
      simp only [History.note] at hlo hhi ⊢
      rw [List.getElem?_append_left (by omega)]
      exact h.filled n hlo hhi
  | enqStored item w =>
      simp only [History.note] at hlo hhi ⊢
      obtain ⟨htlo, hthi⟩ := h.ticket_bounds (t := t) (w := w) (by simp [hpc, Pc.reservedWord])
      have hslot : slotOf (maskOf k) n ≠ slotOf (maskOf k) (y.history.ticket t) := by
        intro heq
        have := h.room
        have := Nat.two_pow_pos k
        have := eq_of_slotOf_eq (by omega) heq (by omega) (by omega)
        omega
      rw [h.store_slot hpc, Function.update_of_ne hslot, Function.update_of_ne hslot]
      exact h.filled n hlo hhi
  | enqPublished item w =>
      simp only [History.note] at hlo hhi ⊢
      rcases Nat.lt_succ_iff_lt_or_eq.mp hhi with hlt | rfl
      · exact h.filled n hlo hlt
      · have hticket := h.tickets.threads t
        have hslots := h.slots t
        have hreg := h.regs t
        rw [hpc] at hticket hslots hreg
        rw [← hticket.2]
        exact ⟨hslots.1.trans hreg.symm, hslots.2⟩
  | deqReleased w item =>
      simp only [History.note] at hlo hhi ⊢
      exact h.filled n (by omega) hhi
  | _ => exact h.filled n hlo hhi

/-- The deliveries are the reservations in order: a release delivers the item of its ticket, which
is the next one. -/
theorem Sound.delivered_after (h : Sound k y) {t : τ} {r : Ring α} {p : Pc α} {e : Event α}
    (access : Access y.ring (y.pcs t) r p e) :
    (y.history.note t e).delivered = (List.range (y.history.note t e).released).map
      fun n => (some n, (y.history.note t e).reserved[n]?) := by
  generalize hpc : y.pcs t = q at access
  cases access with
  | enqReserved item w same =>
      have hbound := h.released_le.trans (h.taken_le.trans h.published_le)
      simp only [History.note, h.delivered]
      apply List.map_congr_left
      intro n hn
      rw [List.getElem?_append_left (lt_of_lt_of_le (List.mem_range.mp hn) hbound)]
  | deqReleased w item =>
      have hticket := h.tickets.threads t
      have hreg := h.regs t
      rw [hpc] at hticket hreg
      obtain ⟨hsource, x, rfl, hx⟩ := hreg
      simp only [History.note, h.delivered, List.range_succ, List.map_append, List.map_singleton,
        hsource, hticket.2]
      rw [← hticket.2, hx]
  | _ => exact h.delivered

theorem Sound.lost_after (h : Sound k y) (hk : k ≤ 31) {t : τ} {r : Ring α} {p : Pc α} {e : Event α}
    (access : Access y.ring (y.pcs t) r p e) : (y.history.note t e).lost = [] := by
  generalize hpc : y.pcs t = q at access
  cases access with
  | enqStored item w =>
      have hdelivered : y.history.delivered.filterMap Prod.fst = List.range y.history.released := by
        rw [h.delivered, List.filterMap_map]
        simp
      have hnone : y.history.undelivered (slotOf (maskOf k) (y.history.ticket t)) = none := by
        rw [History.undelivered, Option.filter_eq_none_iff]
        intro n hn
        simpa [hdelivered] using h.store_frees hk hpc hn
      simp only [History.note, h.store_slot hpc, hnone, h.lost, Option.toList_none, List.append_nil]
  | _ => exact h.lost

theorem Sound.after (h : Sound k y) (hk : k ≤ 31) {t : τ} {r : Ring α} {p : Pc α} {e : Event α}
    (access : Access y.ring (y.pcs t) r p e) (near : NotOvertaken y (.run t)) (fresh : FreshTail y (.run t)) :
    Sound k (y.after t r p e) where
  tickets := h.tickets.after (h.fits hk) access
  size := by
    generalize hpc : y.pcs t = q at access
    cases access <;> exact h.size
  mask := by
    generalize hpc : y.pcs t = q at access
    cases access <;> exact h.mask
  taken_le := by
    have htak := h.taken_le
    have hreg := h.regs t
    generalize hpc : y.pcs t = q at access
    cases access with
    | deqTaken w same =>
        rw [hpc] at hreg
        have hhead := h.head_of_taken hpc (by simpa [NotOvertaken, hpc] using near) same
        have := hreg.2.2
        simp only [System.after, History.note]
        omega
    | enqPublished item w => exact htak.trans (Nat.le_succ _)
    | _ => exact htak
  room := by
    have hroom := h.room
    have hreg := h.regs t
    generalize hpc : y.pcs t = q at access
    cases access with
    | enqReserved item w same =>
        rw [hpc] at hreg
        have hhead := h.head_of_reserved hpc (by simpa [NotOvertaken, hpc] using near) same
        have := hreg.2.2
        simp only [System.after, History.note, List.length_append, List.length_singleton]
        omega
    | deqReleased w item =>
        simp only [System.after, History.note]
        omega
    | _ => exact hroom
  regs := by
    intro u
    by_cases hu : u = t
    · subst hu
      simpa [System.after] using h.regs_self access fresh
    · simpa [System.after, Function.update_of_ne hu] using (h.regs u).later (note_later hu e)
  slots := by
    intro u
    by_cases hu : u = t
    · subst hu
      simpa [System.after] using h.slots_self access
    · simpa [System.after, Function.update_of_ne hu] using h.slots_of_ne hk hu access
  filled := fun _ hlo hhi => h.filled_after hk access hlo hhi
  occupied := by
    intro slot n hocc
    generalize hpc : y.pcs t = q at access
    cases access with
    | enqReserved item w same =>
        have := h.occupied slot n hocc
        simp only [System.after, History.note, List.length_append, List.length_singleton]
        exact ⟨by omega, this.2⟩
    | enqStored item w =>
        simp only [System.after, History.note, h.store_slot hpc] at hocc ⊢
        by_cases hs : slot = slotOf (maskOf k) (y.history.ticket t)
        · rw [hs, Function.update_self, Option.some.injEq] at hocc
          rw [← hocc]
          exact ⟨(h.ticket_bounds (t := t) (w := w) (by simp [hpc, Pc.reservedWord])).2, hs⟩
        · rw [Function.update_of_ne hs] at hocc
          exact h.occupied slot n hocc
    | _ => exact h.occupied slot n hocc
  stored := by
    have hticket := h.tickets.threads t
    generalize hpc : y.pcs t = q at access
    cases access with
    | enqPublished item w =>
        rw [hpc] at hticket
        simp only [System.after, History.note, h.stored, hticket.2, List.range_succ]
    | _ => exact h.stored
  delivered := h.delivered_after access
  lost := h.lost_after hk access
  refused := by
    intro n hn
    generalize hpc : y.pcs t = q at access
    cases access with
    | enqFull item w full =>
        simp only [System.after, History.note, List.mem_append, List.mem_singleton] at hn
        rcases hn with hn | rfl
        · exact h.refused n hn
        · exact h.refused_of_full hk hpc full
    | _ => exact h.refused n hn

theorem Sound.call (h : Sound k y) {t : τ} {p : Pc α} (idle : y.pcs t = .idle)
    (hp : p = .deqLoadTail ∨ ∃ item, p = .enqLoadHead item) : Sound k (y.call t p) where
  tickets := by
    rcases hp with rfl | ⟨item, rfl⟩ <;> exact h.tickets.call idle rfl rfl
  size := h.size
  mask := h.mask
  taken_le := h.taken_le
  room := h.room
  regs := by
    intro u
    by_cases hu : u = t
    · rcases hp with rfl | ⟨item, rfl⟩ <;> simp [System.call, hu, RegOk]
    · simpa [System.call, Function.update_of_ne hu] using h.regs u
  slots := by
    intro u
    by_cases hu : u = t
    · rcases hp with rfl | ⟨item, rfl⟩ <;> simp [System.call, hu, SlotOk]
    · simpa [System.call, Function.update_of_ne hu] using h.slots u
  filled := h.filled
  occupied := h.occupied
  stored := h.stored
  delivered := h.delivered
  lost := h.lost
  refused := h.refused

/-- What the run of a ring may do: no head is overtaken by a full turn of the counter between a
thread's load and its compare-and-set, and no emptiness test uses a tail that was passed. -/
def InTime (y : System τ α) (l : Label τ α) : Prop := NotOvertaken y l ∧ FreshTail y l

theorem Sound.next {y' : System τ α} {l : Label τ α} (h : Sound k y) (hk : k ≤ 31)
    (intime : InTime y l) (hstep : y.next l = some y') : Sound k y' := by
  cases move_of_next hstep with
  | callEnqueue t item idle => exact h.call idle (.inr ⟨item, rfl⟩)
  | callDequeue t idle => exact h.call idle (.inl rfl)
  | run t access => exact h.after hk access intime.1 intime.2

end SimpDserver.NetRing
