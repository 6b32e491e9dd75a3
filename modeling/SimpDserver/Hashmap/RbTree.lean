import SimpDserver.Lib.RedBlack

/-!
# The intrusive red-black tree

`net_hashmap_rbtree.c` and its header: `struct rb_node` with the colour in the low bits of the parent
pointer, linking a leaf, rotating, and the repair loop of an insertion. The tree code reads and writes
nothing but `struct rb_node`s and the root pointer, so memory here is a partial map from addresses to
such nodes; a step that dereferences anything else has no result. The left and the right rotation, and
the two halves of the repair loop, are mirror images, and each pair is one definition over a side.
-/

namespace SimpDserver.NetHashmap

open RedBlack

abbrev Addr := BitVec 64

/-- `struct rb_node`. -/
structure RbNode where
  rbParentColor : BitVec 64
  rbRight : Addr
  rbLeft : Addr

namespace RbNode

/-- `rb_parent` -/
def parent (r : RbNode) : Addr := r.rbParentColor &&& ~~~3#64

/-- `rb_color` -/
def color (r : RbNode) : BitVec 64 := r.rbParentColor &&& 1#64

/-- `rb_is_red` -/
def isRed (r : RbNode) : Bool := r.color == 0

/-- `rb_set_red` -/
def setRed (r : RbNode) : RbNode := { r with rbParentColor := r.rbParentColor &&& ~~~1#64 }

/-- `rb_set_black` -/
def setBlack (r : RbNode) : RbNode := { r with rbParentColor := r.rbParentColor ||| 1#64 }

/-- `rb_set_parent` -/
def setParent (p : Addr) (r : RbNode) : RbNode :=
  { r with rbParentColor := (r.rbParentColor &&& 3#64) ||| p }

/-- `rb_left` or `rb_right`. -/
def child (r : RbNode) : Side → Addr
  | .left => r.rbLeft
  | .right => r.rbRight

def setChild (d : Side) (a : Addr) (r : RbNode) : RbNode :=
  match d with
  | .left => { r with rbLeft := a }
  | .right => { r with rbRight := a }

end RbNode

/-- The `struct rb_node`s in memory and a `struct rb_root`. -/
structure Rb where
  node : Addr → Option RbNode
  root : Addr

namespace Rb

/-- An assignment through a node pointer. -/
def update (t : Rb) (a : Addr) (f : RbNode → RbNode) : Option Rb :=
  (t.node a).map fun r => { t with node := Function.update t.node a (some (f r)) }

/-- `a && rb_is_red(a)` -/
def isRedAt (t : Rb) (a : Addr) : Option Bool :=
  if a = 0 then some false else (t.node a).map RbNode.isRed

end Rb

/-- What a `struct rb_node **` points at: the root pointer or a child pointer. -/
inductive Link where
  | root
  | child (a : Addr) (d : Side)

def Link.load (t : Rb) : Link → Option Addr
  | root => some t.root
  | child a d => (t.node a).map (·.child d)

def Link.store (t : Rb) (v : Addr) : Link → Option Rb
  | root => some { t with root := v }
  | child a d => t.update a (·.setChild d v)

/-- `rb_link_node` -/
def rbLinkNode (t : Rb) (node parent : Addr) (rbLink : Link) : Option Rb := do
  let t ← t.update node fun _ => { rbParentColor := parent, rbRight := 0, rbLeft := 0 }
  rbLink.store t node

/-- The end of a rotation's relinking: the pointer that led to `old` now leads to `new`. -/
def relink (d : Side) (t : Rb) (parent old new : Addr) : Option Rb :=
  if parent ≠ 0 then do
    let p ← t.node parent
    if old = p.child d then t.update parent (·.setChild d new)
    else t.update parent (·.setChild d.other new)
  else some { t with root := new }

/-- `__rb_rotate_left` for `d = left`, `__rb_rotate_right` for `d = right`. -/
def rbRotate (d : Side) (t : Rb) (node : Addr) : Option Rb := do
  let n ← t.node node
  let far := n.child d.other
  let parent := n.parent
  let f ← t.node far
  let t ← t.update node (·.setChild d.other (f.child d))
  let t ← if f.child d ≠ 0 then do
      let f ← t.node far
      t.update (f.child d) (·.setParent node)
    else some t
  let t ← t.update far (·.setChild d node)
  let t ← t.update far (·.setParent parent)
  let t ← relink d t parent node far
  t.update node (·.setParent far)

def rbRotateLeft : Rb → Addr → Option Rb := rbRotate .left

def rbRotateRight : Rb → Addr → Option Rb := rbRotate .right

/-- One round of the repair loop where `parent` is the child of `gparent` on side `d`: the tree and
the node the next round starts from. -/
def rbInsertRound (d : Side) (t : Rb) (node parent gparent : Addr) : Option (Rb × Addr) := do
  let g ← t.node gparent
  let uncle := g.child d.other
  if ← t.isRedAt uncle then
    let t ← t.update uncle RbNode.setBlack
    let t ← t.update parent RbNode.setBlack
    let t ← t.update gparent RbNode.setRed
    return (t, gparent)
  let p ← t.node parent
  let (t, parent, node) ← if p.child d.other = node then do
      let t ← rbRotate d t parent
      pure (t, node, parent)
    else pure (t, parent, node)
  let t ← t.update parent RbNode.setBlack
  let t ← t.update gparent RbNode.setRed
  let t ← rbRotate d.other t gparent
  return (t, node)

/-- `rb_insert_color`, for at most `fuel` tests of the loop's condition. -/
def rbInsertColor : (fuel : Nat) → Rb → Addr → Option Rb
  | 0, _, _ => none
  | fuel + 1, t, node => do
      let parent := (← t.node node).parent
      if parent ≠ 0 ∧ (← t.isRedAt parent) then
        let gparent := (← t.node parent).parent
        let g ← t.node gparent
        let (t, node) ← if parent = g.rbLeft then rbInsertRound .left t node parent gparent
          else rbInsertRound .right t node parent gparent
        rbInsertColor fuel t node
      else t.update t.root RbNode.setBlack

end SimpDserver.NetHashmap
