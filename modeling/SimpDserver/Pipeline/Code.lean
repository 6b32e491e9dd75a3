import SimpDserver.Bundle.WriteBack
import SimpDserver.Forward.Response
import SimpDserver.Lib.Custody
import SimpDserver.Lib.Transition
import SimpDserver.Work.Parser

/-!
# The pipeline

The whole daemon, one thread's step at a time: the udp callback of `net_bundle_core.c` allocates a node
and enqueues it, the worker parses it and passes it on, the forward thread asks upstream and parses the
responses, the bundle thread sends the reply and frees the node. The rings are queues; an enqueue that
finds no room returns -1, which no caller looks at. The cache is any function of the insertions made.
-/

namespace SimpDserver.Daemon

open Custody Transition

/-- Where the worker thread is: waiting for a node, about to parse one, about to enqueue one. -/
inductive Worker where
  | idle
  | parsing (id : Nat)
  | passing (id : Nat) (queue : Queue)

/-- Where the forward thread is: waiting, about to ask for a node, behind the walk over a response, behind
the insertion. -/
inductive Forwarder where
  | idle
  | asking (id : Nat)
  | answered (item : Ref)
  | inserted (item : Ref)

/-- A datagram `recvfrom` delivered, and the node it is in. -/
structure Received where
  id : Nat
  fd : Int
  cliaddr : SockAddr
  bytes : List Byte

def Received.node (rec : Received) : Node := received rec.fd rec.cliaddr rec.bytes

/-- A reply, and the node it was sent from. -/
structure Sent where
  item : Ref
  cliaddr : SockAddr
  datagram : List Byte

/-- Memory, the rings, the threads, and what has happened: datagrams received, replies sent, nodes freed.
`allocated` counts the calls of `malloc`; a node is named by its call. -/
structure Pipeline where
  forward : Forward
  allocated : Nat
  udp : Option Nat
  workRing : List Nat
  worker : Worker
  forwardRing : List Nat
  forwarder : Forwarder
  writer : Option Ref
  received : List Received
  sent : List Sent
  freed : List Ref

/-- The daemon before its first datagram. -/
def Pipeline.initial (node : Ref → Option Node) : Pipeline where
  forward := Forward.initial node
  allocated := 0
  udp := none
  workRing := []
  worker := .idle
  forwardRing := []
  forwarder := .idle
  writer := none
  received := []
  sent := []
  freed := []

/-- What the threads do: `recvfrom` yields these bytes, none when it fails; an enqueue finds room or not;
a datagram arrives from upstream. -/
inductive PipelineStep where
  | receive (fd : Int) (cliaddr : SockAddr) (bytes : List Byte)
  | pushWork (room : Bool)
  | popWork
  | parse
  | pass (room : Bool)
  | popForward
  | ask
  | respond (fuel : Nat) (buff : Int → Byte) (bufflen : Int)
  | insert
  | pushBundle (room : Bool)
  | popBundle
  | writeBack

/-- `enqueue` on a ring. -/
def ringEnqueue (ring : List Nat) (room : Bool) (id : Nat) : List Nat := if room then ring ++ [id] else ring

namespace Pipeline

variable (search : List Insertion → (Nat → Byte) → Int → Ipv4) (s : Pipeline)

/-- `net_bundle_core_module_inside_udp_cb` up to the enqueue. -/
def receive (fd : Int) (cliaddr : SockAddr) (bytes : List Byte) : Option Pipeline :=
  match s.udp with
  | some _ => none
  | none =>
      let id := s.allocated
      let s := { s with
        forward := s.forward.deliver id (Daemon.received fd cliaddr bytes)
        allocated := id + 1 }
      if bytes ≠ [] then some { s with udp := some id, received := s.received ++ [⟨id, fd, cliaddr, bytes⟩] }
      else some s

def pushWork (room : Bool) : Option Pipeline := do
  let id ← s.udp
  return { s with udp := none, workRing := ringEnqueue s.workRing room id }

/-- The `dequeue` of `net_work_module_inside_loop`. -/
def popWork : Option Pipeline :=
  match s.worker, s.workRing with
  | .idle, id :: ring => some { s with workRing := ring, worker := .parsing id }
  | _, _ => none

def parse : Option Pipeline :=
  match s.worker with
  | .parsing id => do
      let node ← s.forward.node (.node id)
      let r ← insideParser (search s.forward.inserted) node
      return { s with forward := s.forward.deliver id r.node, worker := r.passed.elim .idle (.passing id) }
  | _ => none

def pass (room : Bool) : Option Pipeline :=
  match s.worker with
  | .passing id .forward => some { s with worker := .idle, forwardRing := ringEnqueue s.forwardRing room id }
  | .passing id .bundle => some { s with worker := .idle, forward := bundleEnqueue s.forward room (.node id) }
  | _ => none

/-- The `dequeue` of `net_forward_module_inside_loop`. -/
def popForward : Option Pipeline :=
  match s.forwarder, s.forwardRing with
  | .idle, id :: ring => some { s with forwardRing := ring, forwarder := .asking id }
  | _, _ => none

def ask : Option Pipeline :=
  match s.forwarder with
  | .asking id => do
      let (forward, _) ← gethostaddr s.forward (.node id)
      return { s with forward := forward, forwarder := .idle }
  | _ => none

/-- `parse_response` up to the label `success`. -/
def respond (fuel : Nat) (buff : Int → Byte) (bufflen : Int) : Option Pipeline :=
  match s.forwarder with
  | .idle => do
      let (item, forward, _) ← matchItem fuel s.forward buff
      let forward ← readItem fuel forward buff bufflen item
      return { s with forward := forward, forwarder := .answered item }
  | _ => none

def insert : Option Pipeline :=
  match s.forwarder with
  | .answered item => do
      let forward ← insertItem s.forward item
      return { s with forward := forward, forwarder := .inserted item }
  | _ => none

def pushBundle (room : Bool) : Option Pipeline :=
  match s.forwarder with
  | .inserted item => some { s with forward := bundleEnqueue s.forward room item, forwarder := .idle }
  | _ => none

/-- The `dequeue` of `net_bundle_core_module_inside_loop`. -/
def popBundle : Option Pipeline :=
  match s.writer, s.forward.bundle with
  | none, item :: ring => some { s with forward := { s.forward with bundle := ring }, writer := some item }
  | _, _ => none

/-- `sendto` and `free`. -/
def writeBack : Option Pipeline := do
  let item ← s.writer
  let node ← s.forward.node item
  return { s with
    forward := { s.forward with node := Function.update s.forward.node item none }
    writer := none
    sent := s.sent ++ [⟨item, node.cliaddr, (Daemon.writeBack node).datagram⟩]
    freed := s.freed ++ [item] }

end Pipeline

/-- The daemon. -/
def pipeline (search : List Insertion → (Nat → Byte) → Int → Ipv4) : Machine Pipeline PipelineStep where
  start s := ∃ node, (∀ id, node (.node id) = none) ∧ s = Pipeline.initial node
  next s
    | .receive fd cliaddr bytes => s.receive fd cliaddr bytes
    | .pushWork room => s.pushWork room
    | .popWork => s.popWork
    | .parse => s.parse search
    | .pass room => s.pass room
    | .popForward => s.popForward
    | .ask => s.ask
    | .respond fuel buff bufflen => s.respond fuel buff bufflen
    | .insert => s.insert
    | .pushBundle room => s.pushBundle room
    | .popBundle => s.popBundle
    | .writeBack => s.writeBack

/-- The stages and the queues. -/
inductive Place where
  | udp
  | workRing
  | parsing
  | passing
  | forwardRing
  | asking
  | pending (h : BitVec 32)
  | answering
  | bundle
  | writing
  deriving DecidableEq

/-- Who holds which nodes, the pending lists being `T`. -/
def Pipeline.holds (s : Pipeline) (T : BitVec 32 → List Nat) : Place → List Ref
  | .udp => s.udp.toList.map Ref.node
  | .workRing => s.workRing.map Ref.node
  | .parsing => match s.worker with
      | .parsing id => [.node id]
      | _ => []
  | .passing => match s.worker with
      | .passing id _ => [.node id]
      | _ => []
  | .forwardRing => s.forwardRing.map Ref.node
  | .asking => match s.forwarder with
      | .asking id => [.node id]
      | _ => []
  | .pending h => (T h).map Ref.node
  | .answering => match s.forwarder with
      | .answered item => [item]
      | .inserted item => [item]
      | _ => []
  | .bundle => s.forward.bundle
  | .writing => s.writer.toList

end SimpDserver.Daemon
