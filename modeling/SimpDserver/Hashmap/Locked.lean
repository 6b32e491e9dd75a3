import SimpDserver.Hashmap.FirstWrite
import SimpDserver.Lib.AtomicObject
import SimpDserver.Lib.RwLock

/-!
# The hash map shared by threads

`insert` and `search` of `net_hashmap_core.c` with their locks: the worker searches while the forward thread
inserts. A thread takes the lock of the bucket, goes down the tree one comparison at a time, and gives the
lock back; what an insertion writes into the tree, under the exclusive lock, is one step.
-/

namespace SimpDserver.NetHashmap

open Atomic Locking Transition

/-- Where a thread is in its call, just before what is named. -/
inductive Locked.Place where
  -- `pthread_rwlock_wrlock` or `pthread_rwlock_rdlock`
  | lock
  -- the test of `while(*tmp)`
  | descend (tmp : Link) (parent : Addr)
  -- `rb_link_node` and `rb_insert_color`
  | link (tmp : Link) (parent : Addr)
  -- `tmp = root->rb_node`
  | root
  -- the test of `while(tmp)`
  | compare (tmp : Addr)
  -- `pthread_rwlock_unlock`
  | unlock (a : Answer)
  -- the end of the call
  | leave (a : Answer)

inductive Locked.Pc where
  | idle
  | inside (c : Call) (p : Locked.Place)

def Call.bucket : Call → BitVec 32
  | .insert _ domain len _ => insideHash domain len
  | .search domain len => insideHash domain len

def Call.mode : Call → Mode
  | .insert .. => .write
  | .search .. => .read

/-- The map, its locks and the threads. An observer notes the calls in the order in which they are decided,
and the history of calls and returns. -/
structure Locked (τ : Type) where
  map : Hashmap
  lck : BitVec 32 → RwLock τ
  pcs : τ → Locked.Pc
  committed : List Call
  log : List (Mark τ Call Answer)

/-- A thread calls, makes its next step, or returns. -/
inductive Locked.Step (τ : Type) where
  | call (t : τ) (c : Call)
  | run (t : τ)
  | ret (t : τ)

/-- The calls in a history. -/
def calledIn {τ : Type} (log : List (Mark τ Call Answer)) : List Call :=
  log.filterMap fun
    | Mark.called _ c => some c
    | Mark.returned _ _ _ => none

namespace Locked

variable {τ : Type} [DecidableEq τ] (x : Locked τ)

def goto (t : τ) (c : Call) (p : Place) : Locked τ := { x with pcs := Function.update x.pcs t (.inside c p) }

/-- The call of thread `t` is decided. -/
def decide (t : τ) (c : Call) (a : Answer) : Locked τ :=
  { x.goto t c (.unlock a) with committed := x.committed ++ [c] }

/-- Rounds enough for `rb_insert_color`. -/
def rounds : Nat := x.committed.length + 1

/-- The entry of a call: an insertion has its node allocated and filled in before it takes the lock. -/
def enter (t : τ) (c : Call) : Option (Locked τ) :=
  let x := { x with log := x.log ++ [Mark.called t c] }
  match c with
  | .search .. => some (x.goto t c .lock)
  | .insert malloc domain len ipv4 =>
      if malloc = 0 then some (x.goto t c (.leave (.inserted (-1))))
      else if domainLen ≤ len then none
      else some ({ x with map := x.map.alloc malloc ⟨len, strncpy (fun _ => 0) domain len, ipv4⟩ }.goto t c .lock)

/-- One round of the loop of `inside_insert`. -/
def descend (t : τ) (c : Call) (new : Addr) (tmp : Link) (parent : Addr) : Option (Locked τ) := do
  let p ← tmp.load (x.map.bucket c.bucket)
  if p = 0 then return x.goto t c (.link tmp parent)
  let newnode ← x.map.entry new
  let oldnode ← x.map.entry p
  if insideStrcmp (some newnode.domain) (some oldnode.domain) > 0 then
    return x.goto t c (.descend (.child p .left) p)
  else if insideStrcmp (some newnode.domain) (some oldnode.domain) < 0 then
    return x.goto t c (.descend (.child p .right) p)
  else return x.decide t c (.inserted (-1))

/-- The end of `inside_insert`. -/
def link (t : τ) (c : Call) (new : Addr) (tmp : Link) (parent : Addr) : Option (Locked τ) := do
  let tree ← rbLinkNode (x.map.bucket c.bucket) new parent tmp
  let tree ← rbInsertColor x.rounds tree new
  return { x with map := x.map.setBucket c.bucket tree }.decide t c (.inserted 0)

/-- One round of the loop of `inside_search`. -/
def compare (t : τ) (c : Call) (domain : Chars) (tmp : Addr) : Option (Locked τ) :=
  if tmp = 0 then some (x.decide t c (.found 0))
  else do
    let node ← x.map.entry tmp
    if insideStrcmp (some domain) (some node.domain) > 0 then
      return x.goto t c (.compare (← x.map.rbnode tmp).rbLeft)
    else if insideStrcmp (some domain) (some node.domain) < 0 then
      return x.goto t c (.compare (← x.map.rbnode tmp).rbRight)
    else return x.decide t c (.found node.ipv4)

/-- A step of thread `t` inside its call. -/
def step (t : τ) (c : Call) : Place → Option (Locked τ)
  | .lock => do
      let l ← (x.lck c.bucket).lock c.mode t
      let x := { x with lck := Function.update x.lck c.bucket l }
      match c with
      | .insert .. => return x.goto t c (.descend .root 0)
      | .search .. => return x.goto t c .root
  | .descend tmp parent => match c with
      | .insert new .. => x.descend t c new tmp parent
      | .search .. => none
  | .link tmp parent => match c with
      | .insert new .. => x.link t c new tmp parent
      | .search .. => none
  | .root => some (x.goto t c (.compare (x.map.array c.bucket)))
  | .compare tmp => match c with
      | .insert .. => none
      | .search domain _ => x.compare t c domain tmp
  | .unlock a => do
      let l ← (x.lck c.bucket).unlock t
      return { x with lck := Function.update x.lck c.bucket l }.goto t c (.leave a)
  | .leave _ => none

def next : Step τ → Option (Locked τ)
  | .call t c => match x.pcs t with
      | .idle => x.enter t c
      | .inside .. => none
  | .run t => match x.pcs t with
      | .idle => none
      | .inside c p => x.step t c p
  | .ret t => match x.pcs t with
      | .inside c (.leave a) => some { x with pcs := Function.update x.pcs t .idle, log := x.log ++ [Mark.returned t c a] }
      | _ => none

end Locked

/-- The map that `init` leaves, with no thread in a call. -/
def lockedMap (τ : Type) [DecidableEq τ] : Machine (Locked τ) (Locked.Step τ) where
  start x := x = ⟨Hashmap.init, fun _ => .free, fun _ => .idle, [], []⟩
  next := Locked.next

/-- What the callers promise, and `malloc`: a domain is a string that fits, and a block is one that was not
returned before. -/
def Sane {τ : Type} (x : Locked τ) : Locked.Step τ → Prop
  | .call _ c => c.Proper ∧ ∀ a ∈ c.malloc?, a ∉ mallocs (calledIn x.log)
  | _ => True

namespace Locked

/-- Where the call of a thread is, as far as the calls that are decided go. -/
def Pc.status : Pc → Status Call Answer
  | .idle => .idle
  | .inside c (.unlock a) | .inside c (.leave a) => .done c a
  | .inside c _ => .called c

/-- The object whose calls are answered one after another. -/
def abs {τ : Type} (x : Locked τ) : Object τ Call Answer := ⟨x.committed, fun t => (x.pcs t).status, x.log⟩

end Locked

end SimpDserver.NetHashmap
