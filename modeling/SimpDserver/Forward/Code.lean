import SimpDserver.Common.Node
import SimpDserver.Lib.CircularList

/-!
# The forward module

`net_forward.c`: requests wait in 4096 circular lists, hashed by their ID, for a datagram from the
upstream server with that ID. A cursor of `list_for_each_entry_safe` points at a request node or, when
the list is exhausted, at the list head, which the code then goes on using as if it were a node. So
memory for `struct net_common_ring_node` is indexed by both; what a list head's surroundings read as is
part of the state, and a store through such a cursor is kept there (that it may hit the links of another
list is not).
-/

namespace SimpDserver.Daemon

open CircularList

/-- Where a `struct list_head *` points: a list head of the table, or a request node. -/
inductive Ref where
  | head (h : BitVec 32)
  | node (id : Nat)
  deriving DecidableEq

/-- A call of `net_hashmap_core_module.insert`. -/
structure Insertion where
  domain : Nat → Byte
  domainLen : Int
  ipv4 : Ipv4

/-- The memory the forward thread works on: request nodes, list links, the insertions made in the hash
map so far, and the bundle ring. -/
structure Forward where
  node : Ref → Option Node
  links : Links Ref
  inserted : List Insertion
  bundle : List Ref

/-- `__NET_HASH_MIX` -/
def netHashMix (a b c : BitVec 32) : BitVec 32 × BitVec 32 × BitVec 32 :=
  let a := a - b
  let a := a - c
  let a := a ^^^ (c >>> 13)
  let b := b - c
  let b := b - a
  let b := b ^^^ (a <<< 8)
  let c := c - a
  let c := c - b
  let c := c ^^^ (b >>> 13)
  let a := a - b
  let a := a - c
  let a := a ^^^ (c >>> 12)
  let b := b - c
  let b := b - a
  let b := b ^^^ (a <<< 16)
  let c := c - a
  let c := c - b
  let c := c ^^^ (b >>> 5)
  let a := a - b
  let a := a - c
  let a := a ^^^ (c >>> 3)
  let b := b - c
  let b := b - a
  let b := b ^^^ (a <<< 10)
  let c := c - a
  let c := c - b
  let c := c ^^^ (b >>> 15)
  (a, b, c)

/-- `net_forward_module_inside_integer_hash` -/
def integerHash (iden : BitVec 16) : BitVec 32 :=
  let (_, _, c) := netHashMix (iden.setWidth 32 + 0x9e3779b9) 0x9e3779b9 0x10000
  c &&& 4095

/-! ### The pending lists -/

/-- `list_add_tail` -/
def listAddTail (L : Links Ref) (new head : Ref) : Option (Links Ref) := do
  let prev ← L.prev head
  return L.insertBetween new prev head

/-- `list_del` -/
def listDel (L : Links Ref) (entry : Ref) : Option (Links Ref) := do
  let prev ← L.prev entry
  let next ← L.next entry
  return L.unlink entry prev next

/-- `net_forward_module_inside_list_init` -/
def listInit : Links Ref where
  next := fun | .head h => some (.head h) | .node _ => none
  prev := fun | .head h => some (.head h) | .node _ => none

/-- The module with nothing pending and nothing done. -/
def Forward.initial (node : Ref → Option Node) : Forward where
  node := node
  links := listInit
  inserted := []
  bundle := []

/-- A node the ring delivers. -/
def Forward.deliver (s : Forward) (id : Nat) (node : Node) : Forward :=
  { s with node := Function.update s.node (.node id) (some node) }

@[simp] theorem Forward.deliver_node (s : Forward) (id : Nat) (node : Node) :
    (s.deliver id node).node = Function.update s.node (.node id) (some node) := rfl

/-- `(*node->flags) |= 0x1`, with `flags` the offset it points to. -/
def Node.setRd (node : Node) (flags : Nat) : Node :=
  { node with data := Function.update node.data flags (node.data flags ||| 1) }

/-- `net_forward_module_inside_gethostaddr`: the state, and the datagram sent to the upstream server. -/
def gethostaddr (s : Forward) (r : Ref) : Option (Forward × List Byte) := do
  let node ← s.node r
  let flags ← node.flags
  let node := node.setRd flags
  let links ← listAddTail s.links r (.head (integerHash node.iden))
  return ({ s with node := Function.update s.node r (some node), links := links }, node.datagram)

/-- `list_for_each_entry_safe` with the body of `parse_response`: the cursor after the loop, the links,
and the entries the loop dereferenced, for at most `fuel` tests of its condition. -/
def findItem (s : Forward) (iden : BitVec 16) (head : Ref) :
    (fuel : Nat) → (item nxt : Ref) → Option (Ref × Links Ref × List Ref)
  | 0, _, _ => none
  | fuel + 1, item, nxt =>
      if item = head then some (item, s.links, [])
      else do
        let node ← s.node item
        if node.iden = iden then
          let links ← listDel s.links item
          return (item, links, [item])
        else
          let nxt' ← s.links.next nxt
          let (cursor, links, seen) ← findItem s iden head fuel nxt nxt'
          return (cursor, links, item :: seen)

/-! ### Reading a response -/

/-- `while(*pos++ != 0);` -/
def skipName (buff : Int → Byte) : (fuel : Nat) → (pos : Int) → Option Int
  | 0, _ => none
  | fuel + 1, pos => if buff pos ≠ 0 then skipName buff fuel (pos + 1) else some (pos + 1)

/-- The two mask tests of the first byte. -/
def isDeflate (b : Byte) : Bool := (b &&& 0x80 != 0) && (b &&& 0x40 != 0)

/-- The code from the label `next` on: the positions it comes to that label with, as long as they are
before the end, and where the four bytes are that it stores in `item->ipv4`, if it does. -/
def walk (buff : Int → Byte) (bufflen : Int) : (fuel : Nat) → (pos : Int) → Option (List Int × Option Int)
  | 0, _ => none
  | fuel + 1, pos =>
      if bufflen ≤ pos then some ([], none)
      else do
        let field ← if isDeflate (buff pos) then some (pos + 10) else (skipName buff fuel pos).map (· + 8)
        let reslen := ntohs (buff field) (buff (field + 1))
        if reslen = 4 then return ([pos], some (field + 2))
        else
          let (visits, stored) ← walk buff bufflen fuel (field + reslen + 2)
          return (pos :: visits, stored)

/-- Where the walk starts: behind the header and a question as long as the item's. -/
def answerPos (item : Node) : Int := 12 + item.hostLen + 6

/-- `item->ipv4 = *(uint32_t *)pos`, if the walk comes to it. -/
def storeIpv4 (buff : Int → Byte) (item : Node) (stored : Option Int) : Node :=
  match stored with
  | none => item
  | some pos => item.setIpv4 (load32 (buff pos) (buff (pos + 1)) (buff (pos + 2)) (buff (pos + 3)))

/-- The loop of `net_forward_module_inside_parse_response` over the list of the response's ID: what
`item` is after it, the state, and the entries it dereferenced. -/
def matchItem (fuel : Nat) (s : Forward) (buff : Int → Byte) : Option (Ref × Forward × List Ref) := do
  let iden := load16 (buff 0) (buff 1)
  let head := Ref.head (integerHash iden)
  let first ← s.links.next head
  let second ← s.links.next first
  let (item, links, seen) ← findItem s iden head fuel first second
  return (item, { s with links := links }, seen)

/-- `item->host_len` and the walk that may store `item->ipv4`. -/
def readItem (fuel : Nat) (s : Forward) (buff : Int → Byte) (bufflen : Int) (item : Ref) : Option Forward := do
  let node ← s.node item
  let (_, stored) ← walk buff bufflen fuel (answerPos node)
  return { s with node := Function.update s.node item (some (storeIpv4 buff node stored)) }

/-- `net_hashmap_core_module.insert(item->shost, item->host_len, item->ipv4)` -/
def insertItem (s : Forward) (item : Ref) : Option Forward := do
  let node ← s.node item
  return { s with inserted := s.inserted ++ [⟨node.shost, node.hostLen, node.ipv4⟩] }

/-- `net_bundle_core_module.enqueue`, which fails when the ring has no `room`. -/
def bundleEnqueue (s : Forward) (room : Bool) (item : Ref) : Forward :=
  if room then { s with bundle := s.bundle ++ [item] } else s

/-- `net_forward_module_inside_parse_response`: the state, and the entries it dereferenced. -/
def parseResponse (fuel : Nat) (s : Forward) (buff : Int → Byte) (bufflen : Int) (room : Bool) :
    Option (Forward × List Ref) := do
  let (item, s, seen) ← matchItem fuel s buff
  let s ← readItem fuel s buff bufflen item
  let s ← insertItem s item
  return (bundleEnqueue s room item, seen ++ [item])

end SimpDserver.Daemon
