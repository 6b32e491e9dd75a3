import SimpDserver.Pipeline.SingleOwner
import SimpDserver.Ring.QueueView

/-!
# The daemon, one atomic access at a time

The same four threads, but with the rings of `net_ring_common.c` between them instead of queues: a call
of `enqueue` or `dequeue` is a sequence of accesses to the counters and slots of a ring, and the threads
interleave between any two of them. What a thread does outside of such calls is its step of the
pipeline. Memory, stages and logs are kept in a pipeline whose own queues stay empty.
-/

namespace SimpDserver.Daemon

open NetRing Transition

/-- The thread of the udp callback, and those of the three loops. -/
inductive Thread where
  | udp
  | worker
  | forward
  | bundle
  deriving DecidableEq

/-- `net_work_module_ring`, `net_forward_module_ring` and `net_bundle_core_module_ring`. -/
inductive RingName where
  | work
  | forward
  | bundle
  deriving DecidableEq

/-- What a ring carries: a node, or for the bundle ring whatever the cursor of `parse_response` is. -/
abbrev RingName.Item : RingName → Type
  | .work => Nat
  | .forward => Nat
  | .bundle => Ref

structure Threaded where
  base : Pipeline
  rings : (q : RingName) → System Thread q.Item

/-- What the threads do: a step that touches no ring, or an access to one. -/
inductive ThreadedStep where
  | apart (e : PipelineStep)
  | ring (q : RingName) (l : Label Thread q.Item)

deriving instance DecidableEq for Worker, Forwarder

namespace Pipeline

/-- The calls of `enqueue` in the text of the threads. -/
def enqueues (s : Pipeline) : (q : RingName) → Thread → q.Item → Bool
  | .work, .udp, id => s.udp = some id
  | .forward, .worker, id => s.worker = .passing id .forward
  | .bundle, .worker, .node id => s.worker = .passing id .bundle
  | .bundle, .forward, item => s.forwarder = .inserted item
  | _, _, _ => false

/-- The calls of `dequeue`. -/
def dequeues (s : Pipeline) : RingName → Thread → Bool
  | .work, .worker => s.worker = .idle
  | .forward, .forward => s.forwarder = .idle
  | .bundle, .bundle => s.writer = none
  | _, _ => false

/-- A thread whose `enqueue` returned, with whatever result. -/
def enqueued (s : Pipeline) : Thread → Pipeline
  | .udp => { s with udp := none }
  | .worker => { s with worker := .idle }
  | .forward => { s with forwarder := .idle }
  | .bundle => s

/-- The thread whose `dequeue` gave it `item`. -/
def dequeued (s : Pipeline) : (q : RingName) → q.Item → Pipeline
  | .work, id => { s with worker := .parsing id }
  | .forward, id => { s with forwarder := .asking id }
  | .bundle, item => { s with writer := some item }

/-- What the return from a call does to the stage of thread `t`. A `dequeue` that returns `0` with the
null pointer has no continuation. -/
def returned (s : Pipeline) (q : RingName) (t : Thread) : Event q.Item → Option Pipeline
  | .enqFull | .enqPublished => some (s.enqueued t)
  | .deqReleased item => item.map (s.dequeued q)
  | _ => some s

end Pipeline

namespace Threaded

variable (search : List Insertion → (Nat → Byte) → Int → Ipv4) (s : Threaded)

/-- A thread calls what its text calls next; inside a call it makes the accesses of the call. -/
def calls (q : RingName) : Label Thread q.Item → Bool
  | .callEnqueue t item => s.base.enqueues q t item
  | .callDequeue t => s.base.dequeues q t
  | .run _ => true

/-- A step without a ring. The forward thread reads a response only when it is not inside a call. -/
def apart : PipelineStep → Option Pipeline
  | .receive fd cliaddr bytes => s.base.receive fd cliaddr bytes
  | .parse => s.base.parse search
  | .ask => s.base.ask
  | .respond fuel buff bufflen =>
      match (s.rings .forward).pcs .forward with
      | .idle => s.base.respond fuel buff bufflen
      | _ => none
  | .insert => s.base.insert
  | .writeBack => s.base.writeBack
  | _ => none

def next : ThreadedStep → Option Threaded
  | .apart e => (s.apart search e).map fun base => { s with base := base }
  | .ring q l =>
      if s.calls q l then do
        let ring ← (s.rings q).next l
        let base ← ((s.rings q).shows l).elim (some s.base) (s.base.returned q l.thread)
        return { base := base, rings := Function.update s.rings q ring }
      else none

end Threaded

/-- The daemon on rings that `create` returned. -/
def threaded (search : List Insertion → (Nat → Byte) → Int → Ipv4) : Machine Threaded ThreadedStep where
  start s := (∃ node, (∀ id, node (.node id) = none) ∧ s.base = Pipeline.initial node) ∧
    ∀ q, (machine Thread q.Item).start (s.rings q)
  next := Threaded.next search

namespace Threaded

/-- The thread is behind the compare-and-set of an `enqueue`. -/
def past (s : Threaded) (t : Thread) : Bool :=
  ((s.rings .work).pcs t).past || ((s.rings .forward).pcs t).past || ((s.rings .bundle).pcs t).past

/-- The pipeline in the daemon: a node changes hands when its producer wins the compare-and-set, and when
the `dequeue` of its consumer returns. -/
def abs (s : Threaded) : Pipeline :=
  { s.base with
    forward := { s.base.forward with bundle := (s.rings .bundle).queue }
    udp := if s.past .udp then none else s.base.udp
    workRing := (s.rings .work).queue
    worker := if s.past .worker then .idle else s.base.worker
    forwardRing := (s.rings .forward).queue
    forwarder := if s.past .forward then .idle else s.base.forwarder }

end Threaded

end SimpDserver.Daemon
