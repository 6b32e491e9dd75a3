import SimpDserver.Lib.Transition

/-!
# The ring, one atomic access at a time

`net_ring_common.c`: `create` sizes and initialises a ring, `enqueue` and `dequeue` move four
free-running 32-bit counters with a compare-and-set and a publication wait. A call is a sequence of
accesses to shared memory, and `Pc` is where a thread stands between two of them, with the registers
it still needs. `Pc.step` is the text of the two functions cut at those accesses.
-/

namespace SimpDserver.NetRing

abbrev Word := BitVec 32

/-- `struct producer` without `sp_enqueue`, which no function touches. -/
structure Producer where
  watermark : Word
  size : Word
  mask : Word
  head : Word
  tail : Word

/-- `struct consumer` without `sc_dequeue`. -/
structure Consumer where
  size : Word
  mask : Word
  head : Word
  tail : Word

/-- `struct net_ring_common` over item pointers `α`, with `none` the null pointer. -/
structure Ring (α : Type) where
  prod : Producer
  cons : Consumer
  ring : Word → Option α

variable {α : Type}

/-! ### Creating a ring -/

/-- `1 << offset` on an `int`, the shift count taken modulo 32 as the x86 shift does. -/
def shiftOne (offset : Nat) : Word := 1#32 <<< (offset % 32)

/-- The `do … while` loop of `align_pow2` from the value `offset`, for at most `fuel` rounds. -/
def alignPow2Loop (num : Word) : (fuel offset : Nat) → Option Nat
  | 0, _ => none
  | fuel + 1, offset =>
      let mark1 := shiftOne (offset + 1)
      if mark1 ≤ num then alignPow2Loop num fuel (offset + 1) else some (offset + 1)

/-- `net_ring_common_module_inside_align_pow2`; `none` if the loop is still running. -/
def alignPow2 (fuel : Nat) (num : Word) : Option Word := (alignPow2Loop num fuel 0).map shiftOne

/-- `sizeof(struct net_ring_common)`: both counter blocks are aligned to 64 bytes. -/
def sizeofRing : BitVec 64 := 128#64

/-- `net_ring_common_module_inside_init_npool`. `malloc` says which requests are granted and `junk`
is what fresh memory holds; the loop that clears the slots counts up to the signed `tnem`. -/
def initNpool (malloc : BitVec 64 → Bool) (junk : Word → Option α) (fuel : Nat) (nem : Word) :
    Option (Ring α) := do
  let tnem ← alignPow2 fuel nem
  if malloc (sizeofRing + 8#64 * tnem.signExtend 64) then
    some {
      prod := { watermark := tnem, size := tnem, mask := tnem - 1, head := 0, tail := 0 }
      cons := { size := tnem, mask := tnem - 1, head := 0, tail := 0 }
      ring := fun i => if (i.toNat : Int) < tnem.toInt then none else junk i }
  else none

/-- `net_ring_common_module_create`. -/
def create (malloc : BitVec 64 → Bool) (junk : Word → Option α) (fuel : Nat) (nem : Word) :
    Option (Ring α) :=
  initNpool malloc junk fuel nem

/-! ### The calls, cut at their shared accesses -/

/-- Where a thread stands: outside a call, or just before the named access of one. -/
inductive Pc (α : Type) where
  | idle
  | enqLoadHead (item : α)
  | enqLoadTail (item : α) (prodHead : Word)
  | enqCmpset (item : α) (prodHead : Word)
  | enqStore (item : α) (prodHead : Word)
  | enqWait (item : α) (prodHead : Word)
  | enqPublish (item : α) (prodHead : Word)
  | deqLoadTail
  | deqLoadHead (prodTail : Word)
  | deqCmpset (consHead : Word)
  | deqFetch (consHead : Word)
  | deqWait (consHead : Word) (item : Option α)
  | deqPublish (consHead : Word) (item : Option α)

/-- What an access does, as an observer of the ring would note it. A wait shows each round that goes on,
and its last one as a turn. -/
inductive Event (α : Type) where
  -- `prod_head = ring->prod.head`
  | enqSawHead
  -- the full test let the producer go on, or turned it away with `-1`
  | enqAdmitted
  | enqFull
  | enqReserved (item : α)
  | enqRetry
  -- `ring->ring[prod_head & mask] = item`
  | enqStored (slot : Word)
  | enqWaits
  | enqTurn
  -- `ring->prod.tail = prod_next`, then `return 0`
  | enqPublished
  -- `prod_tail = ring->prod.tail`
  | deqSawTail
  -- `cons_head = ring->cons.head` and the empty test
  | deqAdmitted
  | deqEmpty
  | deqTaken
  | deqRetry
  -- `*item = ring->ring[cons_head & mask]`
  | deqFetched (slot : Word)
  | deqWaits
  | deqTurn
  -- `ring->cons.tail = cons_next`, then `return 0` with `*item` set
  | deqReleased (item : Option α)

/-- `net_ring_atomic32_cmpset`: the new value of `*dst`, and the result. -/
def atomic32Cmpset (dst exp src : Word) : Word × Bool := if dst = exp then (src, true) else (dst, false)

/-- The next access of a call. The mask is `ring->prod.mask` in both functions. -/
def Pc.step (r : Ring α) : Pc α → Option (Ring α × Pc α × Event α)
  | .idle => none
  | .enqLoadHead item => some (r, .enqLoadTail item r.prod.head, .enqSawHead)
  | .enqLoadTail item prodHead =>
      let consTail := r.cons.tail
      let freeEntries := consTail - prodHead + r.prod.mask
      if freeEntries ≤ 0 then some (r, .idle, .enqFull)
      else some (r, .enqCmpset item prodHead, .enqAdmitted)
  | .enqCmpset item prodHead =>
      let prodNext := prodHead + 1
      match atomic32Cmpset r.prod.head prodHead prodNext with
      | (head, true) =>
          some ({ r with prod := { r.prod with head := head } }, .enqStore item prodHead, .enqReserved item)
      | (head, false) =>
          some ({ r with prod := { r.prod with head := head } }, .enqLoadHead item, .enqRetry)
  | .enqStore item prodHead =>
      let slot := prodHead &&& r.prod.mask
      some ({ r with ring := Function.update r.ring slot (some item) }, .enqWait item prodHead, .enqStored slot)
  | .enqWait item prodHead =>
      if r.prod.tail ≠ prodHead then some (r, .enqWait item prodHead, .enqWaits)
      else some (r, .enqPublish item prodHead, .enqTurn)
  | .enqPublish _ prodHead =>
      let prodNext := prodHead + 1
      some ({ r with prod := { r.prod with tail := prodNext } }, .idle, .enqPublished)
  | .deqLoadTail => some (r, .deqLoadHead r.prod.tail, .deqSawTail)
  | .deqLoadHead prodTail =>
      let consHead := r.cons.head
      let busyEntries := prodTail - consHead
      if busyEntries ≤ 0 then some (r, .idle, .deqEmpty)
      else some (r, .deqCmpset consHead, .deqAdmitted)
  | .deqCmpset consHead =>
      let consNext := consHead + 1
      match atomic32Cmpset r.cons.head consHead consNext with
      | (head, true) =>
          some ({ r with cons := { r.cons with head := head } }, .deqFetch consHead, .deqTaken)
      | (head, false) =>
          some ({ r with cons := { r.cons with head := head } }, .deqLoadTail, .deqRetry)
  | .deqFetch consHead =>
      let slot := consHead &&& r.prod.mask
      some (r, .deqWait consHead (r.ring slot), .deqFetched slot)
  | .deqWait consHead item =>
      if r.cons.tail ≠ consHead then some (r, .deqWait consHead item, .deqWaits)
      else some (r, .deqPublish consHead item, .deqTurn)
  | .deqPublish consHead item =>
      let consNext := consHead + 1
      some ({ r with cons := { r.cons with tail := consNext } }, .idle, .deqReleased item)

/-! ### Threads on one ring -/

/-- A ring and the threads on it. -/
structure State (τ α : Type) where
  ring : Ring α
  pcs : τ → Pc α

/-- The scheduler's choices: an idle thread calls, or a thread inside a call makes its next access. -/
inductive Label (τ α : Type) where
  | callEnqueue (t : τ) (item : α)
  | callDequeue (t : τ)
  | run (t : τ)

end SimpDserver.NetRing
