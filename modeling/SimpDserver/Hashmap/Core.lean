import SimpDserver.Hashmap.RbTree
import SimpDserver.Hashmap.Strings

/-!
# The hash map

`net_hashmap_core.c`: an array of tree roots, one heap for the entries of all of them. A `struct
net_hashmap_node` begins with its `struct rb_node`, so `container_of` is the identity on addresses; the
two parts are kept in two maps with the same domain. The locks are held over a whole `inside_insert` or
`inside_search`, which is what a call here is. A loop has no result when it dereferences an address
that holds no entry or makes more than `fuel` rounds.
-/

namespace SimpDserver.NetHashmap

open RedBlack

abbrev Ipv4 := BitVec 32

/-- `struct net_hashmap_node` without its `rbnode`. -/
structure Entry where
  domainLen : Nat
  domain : Chars
  ipv4 : Ipv4

/-- `net_hashmap_array` and the heap. -/
structure Hashmap where
  array : BitVec 32 → Addr
  rbnode : Addr → Option RbNode
  entry : Addr → Option Entry

namespace Hashmap

/-- `net_hashmap_core_module_init` -/
def init : Hashmap where
  array := fun _ => 0
  rbnode := fun _ => none
  entry := fun _ => none

/-- The tree of one bucket as the tree code sees it. -/
def bucket (s : Hashmap) (h : BitVec 32) : Rb := ⟨s.rbnode, s.array h⟩

def setBucket (s : Hashmap) (h : BitVec 32) (t : Rb) : Hashmap :=
  { s with rbnode := t.node, array := Function.update s.array h t.root }

/-- The zeroed node that `insert` allocates, with its fields filled in. -/
def alloc (s : Hashmap) (node : Addr) (e : Entry) : Hashmap :=
  { s with
    rbnode := Function.update s.rbnode node (some ⟨0, 0, 0⟩)
    entry := Function.update s.entry node (some e) }

/-- The loop of `inside_insert`: `none` inside is the `return -1`, otherwise `tmp` and `parent`. -/
def insertDescent (s : Hashmap) (h : BitVec 32) (newnode : Entry) :
    (fuel : Nat) → (tmp : Link) → (parent : Addr) → Option (Option (Link × Addr))
  | 0, _, _ => none
  | fuel + 1, tmp, parent => do
      let p ← tmp.load (s.bucket h)
      if p = 0 then return some (tmp, parent)
      let oldnode ← s.entry p
      if insideStrcmp (some newnode.domain) (some oldnode.domain) > 0 then
        insertDescent s h newnode fuel (.child p .left) p
      else if insideStrcmp (some newnode.domain) (some oldnode.domain) < 0 then
        insertDescent s h newnode fuel (.child p .right) p
      else return none

/-- `net_hashmap_core_module_inside_insert` -/
def insideInsert (fuel : Nat) (s : Hashmap) (h : BitVec 32) (new : Addr) : Option (Hashmap × Int) := do
  let newnode ← s.entry new
  match ← s.insertDescent h newnode fuel .root 0 with
  | none => return (s, -1)
  | some (tmp, parent) =>
      let t ← rbLinkNode (s.bucket h) new parent tmp
      let t ← rbInsertColor fuel t new
      return (s.setBucket h t, 0)

/-- `net_hashmap_core_module_insert`, `malloc` being what `malloc` returns. A domain that fills the
array of the node, or runs over it, is outside the model. -/
def insert (fuel : Nat) (s : Hashmap) (malloc : Addr) (domain : Chars) (len : Nat) (ipv4 : Ipv4) :
    Option (Hashmap × Int) :=
  if malloc = 0 then some (s, -1)
  else if domainLen ≤ len then none
  else
    let node : Entry := ⟨len, strncpy (fun _ => 0) domain len, ipv4⟩
    let h := insideHash domain len
    insideInsert fuel (s.alloc malloc node) h malloc

/-- The loop of `inside_search`: the entries it compares with, and what it returns. -/
def searchLoop (s : Hashmap) (domain : Chars) : (fuel : Nat) → (tmp : Addr) → Option (List Addr × Ipv4)
  | 0, _ => none
  | fuel + 1, tmp =>
      if tmp = 0 then some ([], 0)
      else do
        let node ← s.entry tmp
        if insideStrcmp (some domain) (some node.domain) > 0 then
          let (compared, ipv4) ← searchLoop s domain fuel (← s.rbnode tmp).rbLeft
          return (tmp :: compared, ipv4)
        else if insideStrcmp (some domain) (some node.domain) < 0 then
          let (compared, ipv4) ← searchLoop s domain fuel (← s.rbnode tmp).rbRight
          return (tmp :: compared, ipv4)
        else return ([tmp], node.ipv4)

/-- `net_hashmap_core_module_inside_search` -/
def insideSearch (fuel : Nat) (s : Hashmap) (h : BitVec 32) (domain : Chars) : Option (List Addr × Ipv4) :=
  s.searchLoop domain fuel (s.array h)

/-- `net_hashmap_core_module_search` -/
def search (fuel : Nat) (s : Hashmap) (domain : Chars) (len : Nat) : Option Ipv4 :=
  (insideSearch fuel s (insideHash domain len) domain).map Prod.snd

end Hashmap

/-! ### Sequences of calls -/

/-- A call of the module's interface, an `insert` with the address `malloc` gives it. -/
inductive Call where
  | insert (malloc : Addr) (domain : Chars) (len : Nat) (ipv4 : Ipv4)
  | search (domain : Chars) (len : Nat)

/-- What a call returns. -/
inductive Answer where
  | inserted (ret : Int)
  | found (ipv4 : Ipv4)

namespace Hashmap

def call (fuel : Nat) (s : Hashmap) : Call → Option (Hashmap × Answer)
  | .insert malloc domain len ipv4 =>
      (s.insert fuel malloc domain len ipv4).map fun r => (r.1, .inserted r.2)
  | .search domain len => (s.search fuel domain len).map fun ipv4 => (s, .found ipv4)

def runCalls (fuel : Nat) (s : Hashmap) (calls : List Call) : Option Hashmap :=
  calls.foldlM (fun s c => (s.call fuel c).map Prod.fst) s

end Hashmap

end SimpDserver.NetHashmap
