import SimpDserver.Hashmap.RbTree

/-!
# Erasing, walking and replacing

The rest of `net_hashmap_rbtree.c`: `rb_erase` with the repair loop behind it, the walk in order, and
`rb_replace_node`. As before the mirror images are one definition over a side, and a loop makes at most
`fuel` tests of its condition.
-/

namespace SimpDserver.NetHashmap

open RedBlack

/-- `rb_set_color` -/
def RbNode.setColor (color : BitVec 64) (r : RbNode) : RbNode :=
  { r with rbParentColor := (r.rbParentColor &&& ~~~1#64) ||| color }

/-- Whether one of the two children is there and red. -/
def Rb.hasRedChild (t : Rb) (a : Addr) : Option Bool := do
  if ← t.isRedAt (← t.node a).rbLeft then return true
  t.isRedAt (← t.node a).rbRight

/-- `if (a) rb_set_black(a)` -/
def Rb.setBlackAt (t : Rb) (a : Addr) : Option Rb :=
  if a = 0 then some t else t.update a RbNode.setBlack

/-- `if (a) rb_set_parent(a, p)` -/
def Rb.setParentAt (t : Rb) (a p : Addr) : Option Rb :=
  if a ≠ 0 then t.update a (·.setParent p) else some t

/-! ### Repairing -/

/-- The rotation that closes the gap: the rest of a round once `other` has a red child away from it. -/
def rbEraseLend (d : Side) (t : Rb) (parent other : Addr) : Option Rb := do
  let t ← t.update other (RbNode.setColor (← t.node parent).color)
  let t ← t.update parent RbNode.setBlack
  let t ← t.update ((← t.node other).child d.other) RbNode.setBlack
  rbRotate d t parent

/-- A round of `__rb_erase_color` from the test of `other`'s children on. The node and the parent of the
next round, or `none` for the `break`. -/
def rbEraseBlack (d : Side) (t : Rb) (parent other : Addr) : Option (Rb × Option (Addr × Addr)) := do
  if !(← t.hasRedChild other) then
    let t ← t.update other RbNode.setRed
    return (t, some (parent, (← t.node parent).parent))
  let (t, other) ← if !(← t.isRedAt ((← t.node other).child d.other)) then do
      let t ← t.update ((← t.node other).child d) RbNode.setBlack
      let t ← t.update other RbNode.setRed
      let t ← rbRotate d.other t other
      pure (t, (← t.node parent).child d.other)
    else pure (t, other)
  return (← rbEraseLend d t parent other, none)

/-- One round of `__rb_erase_color` where `node` is the child of `parent` on side `d`. -/
def rbEraseRound (d : Side) (t : Rb) (parent : Addr) : Option (Rb × Option (Addr × Addr)) := do
  let other := (← t.node parent).child d.other
  if (← t.node other).isRed then
    let t ← t.update other RbNode.setBlack
    let t ← t.update parent RbNode.setRed
    let t ← rbRotate d t parent
    rbEraseBlack d t parent ((← t.node parent).child d.other)
  else rbEraseBlack d t parent other

/-- `__rb_erase_color` -/
def rbEraseColor : (fuel : Nat) → Rb → (node parent : Addr) → Option Rb
  | 0, _, _, _ => none
  | fuel + 1, t, node, parent => do
      if !(← t.isRedAt node) ∧ node ≠ t.root then
        let p ← t.node parent
        match ← if p.rbLeft = node then rbEraseRound .left t parent else rbEraseRound .right t parent with
        | (t, some (node, parent)) => rbEraseColor fuel t node parent
        | (t, none) => t.setBlackAt t.root
      else t.setBlackAt node

/-! ### Unlinking -/

/-- `while ((next = node->rb_left) != NULL) node = next`, or the same to the right. -/
def rbDown (d : Side) (t : Rb) : (fuel : Nat) → (node : Addr) → Option Addr
  | 0, _ => none
  | fuel + 1, node => do
      let next := (← t.node node).child d
      if next ≠ 0 then rbDown d t fuel next else some node

/-- `rb_erase` of a node with at most one child, which takes its place: what the label `color` finds in
`child`, `parent` and `color`. -/
def rbUnlink (t : Rb) (node child : Addr) : Option (Rb × Addr × Addr × BitVec 64) := do
  let n ← t.node node
  let t ← t.setParentAt child n.parent
  let t ← relink .left t n.parent node child
  return (t, child, n.parent, n.color)

/-- Where `node`, the first one of the right subtree of `old`, was: its right child moves up there, and
`node` gets what is left of the subtree. -/
def rbTakeOut (t : Rb) (old node : Addr) : Option (Rb × Addr) := do
  let n ← t.node node
  if n.parent = old then return (t, node)
  let t ← t.setParentAt n.rbRight n.parent
  let t ← t.update n.parent (RbNode.setChild .left n.rbRight)
  let t ← t.update node (RbNode.setChild .right (← t.node old).rbRight)
  let t ← t.update (← t.node old).rbRight (·.setParent node)
  return (t, n.parent)

/-- `node` takes over the parent, the colour and the left subtree of `old`. -/
def rbTakeOver (t : Rb) (old node : Addr) : Option Rb := do
  let o ← t.node old
  let t ← t.update node fun n => { n with rbParentColor := o.rbParentColor }
  let t ← t.update node (RbNode.setChild .left (← t.node old).rbLeft)
  t.update (← t.node old).rbLeft (·.setParent node)

/-- `rb_erase` of a node with two children, whose place the first node of its right subtree takes. -/
def rbUnlinkInner (fuel : Nat) (t : Rb) (old : Addr) : Option (Rb × Addr × Addr × BitVec 64) := do
  let node ← rbDown .left t fuel (← t.node old).rbRight
  let t ← relink .left t (← t.node old).parent old node
  let n ← t.node node
  let (t, parent) ← rbTakeOut t old node
  let t ← rbTakeOver t old node
  return (t, n.rbRight, parent, n.color)

/-- `rb_erase` down to the label `color`. -/
def rbUnlinkNode (fuel : Nat) (t : Rb) (node : Addr) : Option (Rb × Addr × Addr × BitVec 64) := do
  let n ← t.node node
  if n.rbLeft = 0 then rbUnlink t node n.rbRight
  else if n.rbRight = 0 then rbUnlink t node n.rbLeft
  else rbUnlinkInner fuel t node

/-- `rb_erase` -/
def rbErase (fuel : Nat) (t : Rb) (node : Addr) : Option Rb := do
  let (t, child, parent, color) ← rbUnlinkNode fuel t node
  if color = 1 then rbEraseColor fuel t child parent else some t

/-! ### Walking -/

/-- `rb_first` for `d = left`, `rb_last` for `d = right`. -/
def rbEdge (d : Side) (fuel : Nat) (t : Rb) : Option Addr :=
  if t.root = 0 then some 0 else rbDown d t fuel t.root

def rbFirst : Nat → Rb → Option Addr := rbEdge .left

def rbLast : Nat → Rb → Option Addr := rbEdge .right

/-- The way up past every node that `node` is behind. -/
def rbClimb (d : Side) (t : Rb) : (fuel : Nat) → (node : Addr) → Option Addr
  | 0, _ => none
  | fuel + 1, node => do
      let parent := (← t.node node).parent
      if parent = 0 then some parent
      else if node = (← t.node parent).child d then rbClimb d t fuel parent
      else some parent

/-- `rb_next` for `d = right`, `rb_prev` for `d = left`. -/
def rbStep (d : Side) (fuel : Nat) (t : Rb) (node : Addr) : Option Addr := do
  let n ← t.node node
  if n.parent = node then some 0
  else if n.child d ≠ 0 then rbDown d.other t fuel (n.child d)
  else rbClimb d t fuel node

def rbNext : Nat → Rb → Addr → Option Addr := rbStep .right

def rbPrev : Nat → Rb → Addr → Option Addr := rbStep .left

/-! ### Replacing -/

/-- `rb_replace_node` -/
def rbReplaceNode (t : Rb) (victim new : Addr) : Option Rb := do
  let t ← relink .left t (← t.node victim).parent victim new
  let v ← t.node victim
  let t ← t.setParentAt v.rbLeft new
  let v ← t.node victim
  let t ← t.setParentAt v.rbRight new
  let v ← t.node victim
  t.update new fun _ => v

end SimpDserver.NetHashmap
