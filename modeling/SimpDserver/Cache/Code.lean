import SimpDserver.Cache.Config
import SimpDserver.Hashmap.Entries
import SimpDserver.Lib.Transition
import SimpDserver.Work.Parser

/-!
# The life of the cache

What `main` makes of the hash map: the loader inserts the configured addresses one after another, and then the
worker searches for the name of each request, while the forward thread inserts what each response gives. A
search and an insertion hold the lock of their bucket, and are one step each.
-/

namespace SimpDserver.Daemon

open NetHashmap Transition

/-- The loader's pointer to the source it has come to, the hash map and the calls of `insert` made so far, the
forward ring, and the forward module. -/
structure Cache where
  ptr : List XmlNode
  map : Hashmap
  calls : List Call
  ring : List Node
  forward : Forward

/-- What moves: the loader, the worker with a datagram, the forward thread with a request from its ring, and with
a response. An insertion gets what `malloc` returns, an enqueue fails where there is no `room`. -/
inductive CacheStep where
  | load (malloc : Addr)
  | work (fd : Int) (cliaddr : SockAddr) (bytes : List Byte) (room : Bool)
  | ask (id : Nat)
  | response (fuel : Nat) (buff : Int → Byte) (bufflen : Int) (room : Bool) (malloc : Addr)

namespace Cache

/-- Rounds enough for the loops of the next call. -/
def rounds (c : Cache) : Nat := c.calls.length + 1

/-- `net_hashmap_core_module.search` as the worker calls it. -/
def search (c : Cache) (domain : Nat → Byte) (domainLen : Int) : Ipv4 :=
  (c.map.search c.rounds domain domainLen.toNat).getD 0

/-- `net_hashmap_core_module.insert`, whose return value nothing looks at. -/
def insert (c : Cache) (malloc : Addr) (insertion : Insertion) : Option Cache := do
  let (map, _) ← c.map.insert c.rounds malloc insertion.domain insertion.domainLen.toNat insertion.ipv4
  return { c with
    map := map
    calls := c.calls ++ [.insert malloc insertion.domain insertion.domainLen.toNat insertion.ipv4] }

/-- One round of the loader's loop. -/
def load (c : Cache) (malloc : Addr) : Option Cache :=
  match c.ptr with
  | [] => none
  | ptr :: _ =>
      match sourceOf ptr with
      | none => some { c with ptr := nextSource c.ptr }
      | some source => (c.insert malloc (sourceInsertion source)).map fun c' => { c' with ptr := nextSource c.ptr }

/-- The worker parses a request and passes it on. -/
def work (c : Cache) (node : Node) (room : Bool) : Option Cache := do
  let r ← insideParser c.search node
  return if r.passed = some .forward ∧ room then { c with ring := c.ring ++ [r.node] } else c

/-- The forward thread takes a request from its ring; `id` is where it is in memory. -/
def ask (c : Cache) (id : Nat) : Option Cache :=
  match c.ring with
  | [] => none
  | node :: ring =>
      if (c.forward.node (.node id)).isNone then do
        let (forward, _) ← gethostaddr (c.forward.deliver id node) (.node id)
        return { c with ring := ring, forward := forward }
      else none

/-- The forward thread parses a response; its call of `insert` is the last that `parse_response` makes. -/
def response (c : Cache) (fuel : Nat) (buff : Int → Byte) (bufflen : Int) (room : Bool) (malloc : Addr) :
    Option Cache := do
  let (forward, _) ← parseResponse fuel c.forward buff bufflen room
  let insertion ← forward.inserted.getLast?
  let c ← c.insert malloc insertion
  return { c with forward := forward }

end Cache

/-- `main`: nothing but the loader moves while it has a source left. -/
def cache : Machine Cache CacheStep where
  start c := ∃ pdoc node, (∀ id, node (.node id) = none) ∧
    c = ⟨firstSource pdoc, Hashmap.init, [], [], Forward.initial node⟩
  next c
    | .load malloc => c.load malloc
    | .work fd cliaddr bytes room => if c.ptr.isEmpty then c.work (received fd cliaddr bytes) room else none
    | .ask id => c.ask id
    | .response fuel buff bufflen room malloc => c.response fuel buff bufflen room malloc

/-- The pending request that a response is matched with. -/
def requestOf (fuel : Nat) (s : Forward) (buff : Int → Byte) : Option Node := do
  let (item, _, _) ← matchItem fuel s buff
  match item with
  | .head _ => none
  | .node _ => s.node item

/-- What `malloc` may return: null, or a block it has not returned before. -/
def FreshBlock (c : Cache) (malloc : Addr) : Prop := Aligned malloc ∧ malloc ∉ mallocs c.calls

/-- The steps of the runs in question: responses are for pending requests, and the domains are shorter than
`NET_HASHMAP_DOMAIN_LEN`. -/
def Regular (c : Cache) : CacheStep → Prop
  | .load malloc => FreshBlock c malloc
  | .work fd cliaddr bytes _ => ∀ r ∈ insideParser c.search (received fd cliaddr bytes), r.passed = some .forward →
      r.node.hostLen < domainLen
  | .ask _ => True
  | .response fuel buff _ _ malloc => FreshBlock c malloc ∧ (requestOf fuel c.forward buff).isSome

instance (c : Cache) : (e : CacheStep) → Decidable (Regular c e)
  | .load malloc => inferInstanceAs (Decidable (malloc &&& 3#64 = 0#64 ∧ malloc ∉ mallocs c.calls))
  | .work fd cliaddr bytes _ => inferInstanceAs (Decidable (∀ r ∈ insideParser c.search (received fd cliaddr bytes),
      r.passed = some .forward → r.node.hostLen < domainLen))
  | .ask _ => .isTrue trivial
  | .response fuel buff _ _ malloc => inferInstanceAs (Decidable ((malloc &&& 3#64 = 0#64 ∧ malloc ∉ mallocs c.calls) ∧
      (requestOf fuel c.forward buff).isSome))

end SimpDserver.Daemon
