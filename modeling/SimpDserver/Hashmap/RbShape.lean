import SimpDserver.Hashmap.RbTree

/-!
# The tree in memory

Which red-black tree a `struct rb_root` stands for: a tree of addresses, each node's children and its
parent with the colour in the low bits as the tree says. `Focus` splits it at a subtree, so that an
assignment is described where it happens, and going up or down the tree moves the split and nothing
else. The repair loop in memory is then `fixup` on the tree.
-/

namespace SimpDserver.NetHashmap

open RedBlack

/-- The address a child pointer to the tree holds. -/
def rootOf : RBTree Addr → Addr
  | .leaf => 0
  | .node _ _ x _ => x

/-- Where a node hung at the end of the path has its parent. -/
def parentOf : Path Addr → Addr
  | [] => 0
  | f :: _ => f.elem

@[simp] theorem rootOf_node (c : Color) (l : RBTree Addr) (x : Addr) (r : RBTree Addr) :
    rootOf (.node c l x r) = x :=
  rfl

@[simp] theorem rootOf_branch (d : Side) (c : Color) (near : RBTree Addr) (x : Addr) (far : RBTree Addr) :
    rootOf (.branch d c near x far) = x := by
  cases d <;> rfl

/-- A pointer whose two low bits are free for the colour. -/
def Aligned (a : Addr) : Prop := a &&& 3#64 = 0#64

def colorBit : Color → BitVec 64
  | .red => 0
  | .black => 1

/-! ### One node -/

namespace RbNode

/-- The node with parent `p` and colour `c`, and `near` on side `d`. -/
def mk' (p : Addr) (c : Color) (d : Side) (near far : Addr) : RbNode :=
  match d with
  | .left => ⟨p ||| colorBit c, far, near⟩
  | .right => ⟨p ||| colorBit c, near, far⟩

theorem mk'_other (p : Addr) (c : Color) (d : Side) (near far : Addr) :
    mk' p c d.other near far = mk' p c d far near := by
  cases d <;> rfl

@[simp] theorem child_mk' (p : Addr) (c : Color) (d : Side) (near far : Addr) :
    (mk' p c d near far).child d = near := by
  cases d <;> rfl

@[simp] theorem child_other_mk' (p : Addr) (c : Color) (d : Side) (near far : Addr) :
    (mk' p c d near far).child d.other = far := by
  cases d <;> rfl

@[simp] theorem setChild_mk' (p : Addr) (c : Color) (d : Side) (near far a : Addr) :
    (mk' p c d near far).setChild d a = mk' p c d a far := by
  cases d <;> rfl

@[simp] theorem setChild_other_mk' (p : Addr) (c : Color) (d : Side) (near far a : Addr) :
    (mk' p c d near far).setChild d.other a = mk' p c d near a := by
  cases d <;> rfl

theorem rbParentColor_mk' (p : Addr) (c : Color) (d : Side) (near far : Addr) :
    (mk' p c d near far).rbParentColor = p ||| colorBit c := by
  cases d <;> rfl

/-! The colour bits and an aligned pointer do not meet. -/

theorem and_not_of_and_eq_zero {p m : BitVec 64} (h : p &&& m = 0#64) : p &&& ~~~m = p := by
  have hsplit : p &&& (m ||| ~~~m) = p := by rw [BitVec.or_not_self, BitVec.and_allOnes]
  rwa [BitVec.and_or_distrib_left, h, BitVec.zero_or] at hsplit

theorem and_low {p : Addr} (hp : Aligned p) {m : BitVec 64} (hm : 3#64 &&& m = m) : p &&& m = 0#64 := by
  rw [← hm, ← BitVec.and_assoc, hp, BitVec.zero_and]

theorem parent_mk' {p : Addr} (hp : Aligned p) (c : Color) (d : Side) (near far : Addr) :
    (mk' p c d near far).parent = p := by
  rw [parent, rbParentColor_mk', BitVec.and_or_distrib_right, and_not_of_and_eq_zero hp]
  cases c <;> simp [colorBit]

theorem isRed_mk' {p : Addr} (hp : Aligned p) (c : Color) (d : Side) (near far : Addr) :
    (mk' p c d near far).isRed = (c == .red) := by
  rw [isRed, color, rbParentColor_mk', BitVec.and_or_distrib_right, and_low hp (by decide)]
  cases c <;> decide

theorem setParent_mk' {p : Addr} (hp : Aligned p) (q : Addr) (c : Color) (d : Side) (near far : Addr) :
    (mk' p c d near far).setParent q = mk' q c d near far := by
  have hbits : (p ||| colorBit c) &&& 3#64 ||| q = q ||| colorBit c := by
    rw [BitVec.and_or_distrib_right, and_low hp (by decide), BitVec.zero_or, BitVec.or_comm]
    cases c <;> simp [colorBit]
  cases d <;> simp only [mk', setParent, hbits]

theorem setBlack_mk' (p : Addr) (c : Color) (d : Side) (near far : Addr) :
    (mk' p c d near far).setBlack = mk' p .black d near far := by
  have hbits : p ||| colorBit c ||| 1#64 = p ||| colorBit .black := by
    rw [BitVec.or_assoc]
    cases c <;> simp [colorBit]
  cases d <;> simp only [mk', setBlack, hbits]

theorem setRed_mk' {p : Addr} (hp : Aligned p) (c : Color) (d : Side) (near far : Addr) :
    (mk' p c d near far).setRed = mk' p .red d near far := by
  have hbits : (p ||| colorBit c) &&& ~~~1#64 = p ||| colorBit .red := by
    rw [BitVec.and_or_distrib_right, and_not_of_and_eq_zero (and_low hp (by decide))]
    cases c <;> simp [colorBit]
  cases d <;> simp only [mk', setRed, hbits]

end RbNode

/-! ### A tree in memory -/

/-- The tree is in memory under the parent `p`. -/
def Repr (m : Addr → Option RbNode) : Addr → RBTree Addr → Prop
  | _, .leaf => True
  | p, .node c l x r =>
      m x = some (.mk' p c .left (rootOf l) (rootOf r)) ∧ Repr m x l ∧ Repr m x r

/-- The path is in memory from the root pointer `root` down to a pointer that holds `hole`. -/
def ReprPath (m : Addr → Option RbNode) : (hole root : Addr) → Path Addr → Prop
  | hole, root, [] => root = hole
  | hole, root, f :: p =>
      m f.elem = some (.mk' (parentOf p) f.color f.side hole (rootOf f.sibling)) ∧
        Repr m f.elem f.sibling ∧ ReprPath m f.elem root p

variable {m m' : Addr → Option RbNode}

theorem repr_branch {p x : Addr} {d : Side} {c : Color} {near far : RBTree Addr} :
    Repr m p (.branch d c near x far) ↔
      m x = some (.mk' p c d (rootOf near) (rootOf far)) ∧ Repr m x near ∧ Repr m x far := by
  cases d with
  | left => rfl
  | right =>
      rw [← RbNode.mk'_other]
      exact and_congr_right fun _ => and_comm

theorem Repr.congr {p : Addr} {T : RBTree Addr} (h : Repr m p T) (hm : ∀ a ∈ T.toList, m' a = m a) :
    Repr m' p T := by
  induction T generalizing p with
  | leaf => trivial
  | node c l x r ihl ihr =>
      simp only [RBTree.toList, List.mem_append, List.mem_cons] at hm
      exact ⟨(hm x (Or.inr (Or.inl rfl))).trans h.1, ihl h.2.1 fun a ha => hm a (Or.inl ha),
        ihr h.2.2 fun a ha => hm a (Or.inr (Or.inr ha))⟩

theorem ReprPath.congr {hole root : Addr} {P : Path Addr} (h : ReprPath m hole root P)
    (hm : ∀ a ∈ Path.elems P, m' a = m a) : ReprPath m' hole root P := by
  induction P generalizing hole with
  | nil => exact h
  | cons f P ih =>
      simp only [Path.elems, List.mem_cons, List.mem_append] at hm
      exact ⟨(hm _ (Or.inl rfl)).trans h.1, h.2.1.congr fun a ha => hm a (Or.inr (Or.inl ha)),
        ih h.2.2 fun a ha => hm a (Or.inr (Or.inr ha))⟩

/-! An assignment to a node that is elsewhere. -/

theorem Repr.update {p x : Addr} {T : RBTree Addr} {v : Option RbNode} (h : Repr m p T) (hx : x ∉ T.toList) :
    Repr (Function.update m x v) p T := by
  apply h.congr
  intro a ha
  exact Function.update_of_ne (ne_of_mem_of_not_mem ha hx) ..

theorem ReprPath.update {hole root x : Addr} {P : Path Addr} {v : Option RbNode} (h : ReprPath m hole root P)
    (hx : x ∉ Path.elems P) : ReprPath (Function.update m x v) hole root P := by
  apply h.congr
  intro a ha
  exact Function.update_of_ne (ne_of_mem_of_not_mem ha hx) ..

/-- Addresses that nodes of one tree can have. -/
structure Usable (A : List Addr) : Prop where
  nodup : A.Nodup
  ne_zero : ∀ a ∈ A, a ≠ 0
  aligned : ∀ a ∈ A, Aligned a

theorem Usable.cons {A : List Addr} {a : Addr} (h : Usable A) (ha : a ∉ A) (hzero : a ≠ 0)
    (haligned : Aligned a) : Usable (a :: A) where
  nodup := List.nodup_cons.mpr ⟨ha, h.nodup⟩
  ne_zero := List.forall_mem_cons.mpr ⟨hzero, h.ne_zero⟩
  aligned := List.forall_mem_cons.mpr ⟨haligned, h.aligned⟩

theorem Usable.perm {A B : List Addr} (h : Usable A) (hperm : A.Perm B) : Usable B where
  nodup := hperm.nodup_iff.mp h.nodup
  ne_zero a ha := h.ne_zero a (hperm.mem_iff.mpr ha)
  aligned a ha := h.aligned a (hperm.mem_iff.mpr ha)

/-- Memory holds the tree `plug T P`, whose addresses are `A` in order, and elsewhere is still `m₀`. -/
structure Focus (A : List Addr) (m₀ : Addr → Option RbNode) (t : Rb) (T : RBTree Addr) (P : Path Addr) :
    Prop where
  here : Repr t.node (parentOf P) T
  around : ReprPath t.node (rootOf T) t.root P
  elems : (plug T P).toList = A
  outside : ∀ a, a ∉ A → t.node a = m₀ a

variable {A : List Addr} {m₀ : Addr → Option RbNode} {t : Rb}

theorem focus_branch {d : Side} {c : Color} {near far : RBTree Addr} {x : Addr} {P : Path Addr} :
    Focus A m₀ t (.branch d c near x far) P ↔ Focus A m₀ t near (⟨d, c, x, far⟩ :: P) := by
  constructor
  · intro h
    obtain ⟨here, around, elems, outside⟩ := h
    rw [rootOf_branch] at around
    obtain ⟨hx, hnear, hfar⟩ := repr_branch.mp here
    exact ⟨hnear, ⟨hx, hfar, around⟩, elems, outside⟩
  · intro h
    obtain ⟨here, ⟨hx, hfar, around⟩, elems, outside⟩ := h
    exact ⟨repr_branch.mpr ⟨hx, here, hfar⟩, by rwa [rootOf_branch], elems, outside⟩

theorem Focus.mem {T : RBTree Addr} {P : Path Addr} (h : Focus A m₀ t T P) {a : Addr} :
    a ∈ A ↔ a ∈ T.toList ∨ a ∈ Path.elems P := by
  rw [← h.elems, (toList_plug_perm T P).mem_iff, List.mem_append]

theorem Focus.toRoot {T : RBTree Addr} {P : Path Addr} (h : Focus A m₀ t T P) :
    Focus A m₀ t (plug T P) [] := by
  induction P generalizing T with
  | nil => exact h
  | cons f P ih => exact ih (focus_branch.mpr h)

theorem Focus.ofRoot {T : RBTree Addr} {P : Path Addr} (h : Focus A m₀ t (plug T P) []) :
    Focus A m₀ t T P := by
  induction P generalizing T with
  | nil => exact h
  | cons f P ih => exact focus_branch.mp (ih h)

/-- The pointer that leads to the subtree at the end of the path. -/
def linkOf : Path Addr → Link
  | [] => .root
  | f :: _ => .child f.elem f.side

theorem Focus.load_linkOf {T : RBTree Addr} {P : Path Addr} (h : Focus A m₀ t T P) :
    (linkOf P).load t = some (rootOf T) := by
  cases P with
  | nil => exact congrArg some h.around
  | cons f P =>
      rw [linkOf, Link.load, h.around.1, Option.map_some, RbNode.child_mk']

section Usable

variable (hA : Usable A) {T : RBTree Addr} {P : Path Addr}
include hA

theorem Focus.nodup (h : Focus A m₀ t T P) : (T.toList ++ Path.elems P).Nodup :=
  (toList_plug_perm T P).nodup_iff.mp (h.elems ▸ hA.nodup)

theorem Focus.aligned_parentOf (h : Focus A m₀ t T P) : Aligned (parentOf P) := by
  cases P with
  | nil => rfl
  | cons f P => exact hA.aligned _ (h.mem.mpr (Or.inr List.mem_cons_self))

/-- An assignment to the node at the focus that keeps its links. -/
theorem Focus.update_color {d : Side} {c c' : Color} {near far : RBTree Addr} {x : Addr}
    (h : Focus A m₀ t (.branch d c near x far) P) {f : RbNode → RbNode}
    (hf : ∀ near far, f (.mk' (parentOf P) c d near far) = .mk' (parentOf P) c' d near far) :
    ∃ t', t.update x f = some t' ∧ Focus A m₀ t' (.branch d c' near x far) P := by
  obtain ⟨hx, hnear, hfar⟩ := repr_branch.mp h.here
  refine ⟨_, by rw [Rb.update, hx, Option.map_some], ?_⟩
  have hnodup := h.nodup hA
  rw [((toList_branch_perm d c near x far).append_right _).nodup_iff] at hnodup
  simp only [List.cons_append, List.nodup_cons, List.mem_append, not_or] at hnodup
  obtain ⟨⟨⟨hxn, hxf⟩, hxP⟩, -⟩ := hnodup
  refine ⟨repr_branch.mpr ⟨?_, hnear.update hxn, hfar.update hxf⟩, ?_, ?_, ?_⟩
  · simp only [Function.update_self, hf]
  · have haround := h.around
    rw [rootOf_branch] at haround ⊢
    exact haround.update hxP
  · rw [← h.elems]
    apply toList_plug_congr
    cases d <;> rfl
  · intro a ha
    have hax : a ≠ x := by
      rintro rfl
      apply ha
      rw [h.mem, (toList_branch_perm d c near a far).mem_iff]
      exact Or.inl List.mem_cons_self
    exact (Function.update_of_ne hax ..).trans (h.outside a ha)

theorem Focus.setBlack {d : Side} {c : Color} {near far : RBTree Addr} {x : Addr}
    (h : Focus A m₀ t (.branch d c near x far) P) :
    ∃ t', t.update x RbNode.setBlack = some t' ∧ Focus A m₀ t' (.branch d .black near x far) P :=
  h.update_color hA fun _ _ => RbNode.setBlack_mk' ..

theorem Focus.setRed {d : Side} {c : Color} {near far : RBTree Addr} {x : Addr}
    (h : Focus A m₀ t (.branch d c near x far) P) :
    ∃ t', t.update x RbNode.setRed = some t' ∧ Focus A m₀ t' (.branch d .red near x far) P :=
  h.update_color hA fun _ _ => RbNode.setRed_mk' (h.aligned_parentOf hA) ..

end Usable

/-! ### Rotations -/

theorem store_spec {P : Path Addr} {old : Addr} (new : Addr) (h : ReprPath t.node old t.root P)
    (hP : (Path.elems P).Nodup) :
    ∃ t', (linkOf P).store t new = some t' ∧ ReprPath t'.node new t'.root P ∧
      ∀ a, a ∉ Path.elems P → t'.node a = t.node a := by
  cases P with
  | nil => exact ⟨{ t with root := new }, rfl, rfl, fun _ _ => rfl⟩
  | cons f P =>
      obtain ⟨d, c, x, s⟩ := f
      obtain ⟨hx, hs, hP'⟩ := h
      rw [Path.elems, List.nodup_cons, List.mem_append, not_or] at hP
      refine ⟨{ t with node := Function.update t.node x (some (.mk' (parentOf P) c d new (rootOf s))) },
        ?_, ⟨Function.update_self .., ?_, ?_⟩, ?_⟩
      · simp only [linkOf, Link.store, Rb.update, hx, Option.map_some, RbNode.setChild_mk']
      · exact hs.update hP.1.1
      · exact hP'.update hP.1.2
      · intro a ha
        rw [Path.elems, List.mem_cons, not_or] at ha
        exact Function.update_of_ne ha.1 ..

/-- The test for the side tells which child pointer the path comes down through. -/
theorem relink_eq_store {P : Path Addr} {old : Addr} (d : Side) (new : Addr)
    (h : ReprPath t.node old t.root P) (hzero : ∀ a ∈ Path.elems P, a ≠ 0) (hold : old ≠ 0)
    (hfresh : old ∉ Path.elems P) : relink d t (parentOf P) old new = (linkOf P).store t new := by
  cases P with
  | nil => rfl
  | cons f P =>
      obtain ⟨e, c, x, s⟩ := f
      have hx := h.1
      simp only [Path.elems, List.mem_append, List.mem_cons, not_or] at hfresh hzero hx
      have hsib : old ≠ rootOf s := by
        cases s with
        | leaf => exact hold
        | node c' l y r =>
            rintro rfl
            simp [RBTree.toList] at hfresh
      rw [relink, parentOf, if_pos (hzero x (Or.inl rfl)), hx, linkOf, Link.store]
      by_cases hde : d = e
      · subst hde
        simp
      · obtain rfl := Side.eq_other_of_ne hde
        simp [hsib]

theorem reparent_spec {b : RBTree Addr} {p : Addr} (q : Addr) (h : Repr t.node p b) (hp : Aligned p)
    (hb : b.toList.Nodup) (hzero : ∀ a ∈ b.toList, a ≠ 0) :
    ∃ t', (if rootOf b ≠ 0 then t.update (rootOf b) (·.setParent q) else some t) = some t' ∧
      t'.root = t.root ∧ Repr t'.node q b ∧ ∀ a, a ∉ b.toList → t'.node a = t.node a := by
  cases b with
  | leaf => exact ⟨t, by simp [rootOf], rfl, trivial, fun _ _ => rfl⟩
  | node c l x r =>
      have hperm : (x :: (l.toList ++ r.toList)).Nodup :=
        (toList_branch_perm .left c l x r).nodup_iff.mp hb
      rw [List.nodup_cons, List.mem_append, not_or] at hperm
      have hx : x ∈ (RBTree.node c l x r).toList := by simp [RBTree.toList]
      refine ⟨⟨Function.update t.node x (some (.mk' q c .left (rootOf l) (rootOf r))), t.root⟩, ?_, rfl,
        ⟨Function.update_self .., ?_, ?_⟩, ?_⟩
      · rw [rootOf, if_pos (hzero x hx), Rb.update, h.1, Option.map_some, RbNode.setParent_mk' hp]
      · exact h.2.1.update hperm.1.1
      · exact h.2.2.update hperm.1.2
      · intro a ha
        exact Function.update_of_ne (ne_of_mem_of_not_mem hx ha).symm ..

/-- Rotating the node at the focus towards side `d`. -/
theorem Focus.rotate (hA : Usable A) {d : Side} {cx cy : Color} {a b c : RBTree Addr} {x y : Addr}
    {P : Path Addr} (h : Focus A m₀ t (.branch d cx a x (.branch d cy b y c)) P) :
    ∃ t', rbRotate d t x = some t' ∧ Focus A m₀ t' (.branch d cy (.branch d cx a x b) y c) P := by
  have hnodup := h.nodup hA
  have hperm : ((RBTree.branch d cx a x (.branch d cy b y c)).toList ++ Path.elems P).Perm
      (x :: y :: (a.toList ++ (b.toList ++ (c.toList ++ Path.elems P)))) := by
    refine (((toList_branch_perm ..).trans
      (((toList_branch_perm ..).append_left _).cons x)).append_right _).trans ?_
    simp
  have hmem := fun z => (h.mem (a := z)).trans (List.mem_append.symm.trans hperm.mem_iff)
  rw [hperm.nodup_iff] at hnodup
  simp only [List.nodup_cons, List.nodup_append, List.mem_cons, List.mem_append, not_or] at hnodup hmem
  obtain ⟨⟨hxy, hxa, hxb, hxc, hxP⟩, ⟨hya, hyb, hyc, hyP⟩, -, ⟨hb, ⟨-, hP, hcP⟩, hbcP⟩, habcP⟩ :=
    hnodup
  obtain ⟨hx, hra, hright⟩ := repr_branch.mp h.here
  obtain ⟨hy, hrb, hrc⟩ := repr_branch.mp hright
  have haround := h.around
  rw [rootOf_branch] at hx haround
  have hal : ∀ z, z = x ∨ z = y → Aligned z := fun z hz =>
    hA.aligned z ((hmem z).mpr (by tauto))
  -- the child that changes sides
  let t₁ : Rb := { t with node := Function.update t.node x (some (.mk' (parentOf P) cx d (rootOf a) (rootOf b))) }
  have ht₁ : t.update x (·.setChild d.other (rootOf b)) = some t₁ := by
    simp [Rb.update, hx, t₁]
  have hrb₁ : Repr t₁.node y b := hrb.update hxb
  obtain ⟨t₂, ht₂, hroot₂, hrb₂, hframe₂⟩ := reparent_spec x hrb₁ (hal y (Or.inr rfl)) hb
    fun z hz => hA.ne_zero z ((hmem z).mpr (by tauto))
  have hy₁ : t₁.node y = some (.mk' x cy d (rootOf b) (rootOf c)) :=
    (Function.update_of_ne (Ne.symm hxy) ..).trans hy
  have hy₂ := (hframe₂ y hyb).trans hy₁
  have hx₂ := (hframe₂ x hxb).trans (Function.update_self ..)
  -- the far child moves up
  let t₃ : Rb := { t₂ with node := Function.update t₂.node y (some (.mk' x cy d x (rootOf c))) }
  have ht₃ : t₂.update y (·.setChild d x) = some t₃ := by
    simp [Rb.update, hy₂, t₃]
  let t₄ : Rb := { t₂ with node := Function.update t₂.node y (some (.mk' (parentOf P) cy d x (rootOf c))) }
  have ht₄ : t₃.update y (·.setParent (parentOf P)) = some t₄ := by
    simp [Rb.update, RbNode.setParent_mk' (hal x (Or.inl rfl)), t₃, t₄]
  have hframe₄ : ∀ z, z ≠ x → z ≠ y → z ∉ b.toList → t₄.node z = t.node z := fun z hzx hzy hzb =>
    (Function.update_of_ne hzy ..).trans ((hframe₂ z hzb).trans (Function.update_of_ne hzx ..))
  have haround₄ : ReprPath t₄.node x t₄.root P := by
    rw [show t₄.root = t.root from hroot₂]
    exact haround.congr fun z hz => hframe₄ z (ne_of_mem_of_not_mem hz hxP) (ne_of_mem_of_not_mem hz hyP)
      fun hzb => hbcP z hzb z (Or.inr hz) rfl
  obtain ⟨t₅, ht₅, haround₅, hframe₅⟩ := store_spec y haround₄ hP
  rw [← relink_eq_store d y haround₄ (fun z hz => hA.ne_zero z ((hmem z).mpr (by tauto)))
    (hA.ne_zero x ((hmem x).mpr (by tauto))) hxP] at ht₅
  have hx₅ : t₅.node x = some (.mk' (parentOf P) cx d (rootOf a) (rootOf b)) :=
    (hframe₅ x hxP).trans ((Function.update_of_ne hxy ..).trans hx₂)
  -- the node itself moves down
  let t₆ : Rb := { t₅ with node := Function.update t₅.node x (some (.mk' y cx d (rootOf a) (rootOf b))) }
  have ht₆ : t₅.update x (·.setParent y) = some t₆ := by
    simp [Rb.update, hx₅, RbNode.setParent_mk' (h.aligned_parentOf hA), t₆]
  have hframe₆ : ∀ z, z ≠ x → z ∉ Path.elems P → t₆.node z = t₄.node z := fun z hzx hzP =>
    (Function.update_of_ne hzx ..).trans (hframe₅ z hzP)
  refine ⟨t₆, ?_, ?_⟩
  · simp only [rbRotate, hx, Option.bind_eq_bind, Option.bind_some, RbNode.child_other_mk', hy,
      RbNode.child_mk', ht₁, hy₁, RbNode.parent_mk' (h.aligned_parentOf hA)]
    by_cases hb0 : rootOf b ≠ 0
    · rw [if_pos hb0] at ht₂ ⊢
      simp only [ht₂, ht₃, ht₄, ht₅, ht₆, Option.bind_some]
    · rw [if_neg hb0] at ht₂ ⊢
      obtain rfl := Option.some.inj ht₂
      simp only [ht₃, ht₄, ht₅, ht₆, Option.bind_some]
  · refine ⟨repr_branch.mpr ⟨?_, repr_branch.mpr ⟨?_, ?_, ?_⟩, ?_⟩, ?_, ?_, ?_⟩
    · rw [rootOf_branch]
      exact (hframe₆ y (Ne.symm hxy) hyP).trans (Function.update_self ..)
    · exact Function.update_self ..
    · apply hra.congr
      intro z hz
      have hzx := ne_of_mem_of_not_mem hz hxa
      rw [hframe₆ z hzx fun hzP => habcP z hz z (Or.inr (Or.inr hzP)) rfl]
      exact hframe₄ z hzx (ne_of_mem_of_not_mem hz hya) fun hzb => habcP z hz z (Or.inl hzb) rfl
    · apply hrb₂.congr
      intro z hz
      rw [hframe₆ z (ne_of_mem_of_not_mem hz hxb) fun hzP => hbcP z hz z (Or.inr hzP) rfl]
      exact Function.update_of_ne (ne_of_mem_of_not_mem hz hyb) ..
    · apply hrc.congr
      intro z hz
      have hzx := ne_of_mem_of_not_mem hz hxc
      rw [hframe₆ z hzx fun hzP => hcP z hz z hzP rfl]
      exact hframe₄ z hzx (ne_of_mem_of_not_mem hz hyc) fun hzb => hbcP z hzb z (Or.inl hz) rfl
    · rw [rootOf_branch]
      exact haround₅.update hxP
    · rw [← h.elems]
      apply toList_plug_congr
      cases d <;> simp [RBTree.branch, RBTree.toList]
    · intro z hz
      have hout := (hmem z).not.mp hz
      simp only [not_or] at hout
      rw [hframe₆ z hout.1 hout.2.2.2.2.2, hframe₄ z hout.1 hout.2.1 hout.2.2.2.1]
      exact h.outside z hz

theorem Focus.rbLinkNode_spec (hA : Usable A) {Q : Path Addr} {p : Addr} (h : Focus A m₀ t .leaf Q)
    (hp : p ∉ A) (halloc : (t.node p).isSome) :
    ∃ t', rbLinkNode t p (parentOf Q) (linkOf Q) = some t' ∧
      Focus (plug (.node .red .leaf p .leaf) Q).toList m₀ t' (.node .red .leaf p .leaf) Q := by
  obtain ⟨r, hr⟩ := Option.isSome_iff_exists.mp halloc
  let t₁ : Rb := { t with node := Function.update t.node p (some ⟨parentOf Q, 0, 0⟩) }
  have ht₁ : t.update p (fun _ => ⟨parentOf Q, 0, 0⟩) = some t₁ := by
    rw [Rb.update, hr, Option.map_some]
  have hpQ : p ∉ Path.elems Q := fun hmem => hp (h.mem.mpr (Or.inr hmem))
  have haround₁ : ReprPath t₁.node 0 t₁.root Q := h.around.update hpQ
  obtain ⟨t', ht', haround', hframe⟩ := store_spec p haround₁ (h.nodup hA)
  refine ⟨t', ?_, ⟨⟨?_, trivial, trivial⟩, haround', rfl, ?_⟩⟩
  · simp only [rbLinkNode, Option.bind_eq_bind, ht₁, Option.bind_some, ht']
  · rw [hframe p hpQ, RbNode.mk', colorBit, BitVec.ofNat_eq_ofNat, BitVec.or_zero]
    exact Function.update_self ..
  · intro a ha
    rw [(toList_plug_perm ..).mem_iff, List.mem_append, not_or] at ha
    have hap : a ≠ p := fun hap => ha.1 (by simp [RBTree.toList, hap])
    rw [hframe a ha.2]
    refine (Function.update_of_ne hap ..).trans (h.outside a fun hmem => ?_)
    simpa [RBTree.toList, ha.2] using h.mem.mp hmem

/-! ### The repair loop -/

section Loop

variable (hA : Usable A) {P : Path Addr}
include hA

omit hA in
theorem Focus.node_branch {d : Side} {c : Color} {near far : RBTree Addr} {x : Addr}
    (h : Focus A m₀ t (.branch d c near x far) P) :
    t.node x = some (.mk' (parentOf P) c d (rootOf near) (rootOf far)) :=
  (repr_branch.mp h.here).1

theorem Focus.isRedAt {T : RBTree Addr} (h : Focus A m₀ t T P) : t.isRedAt (rootOf T) = some T.isRed := by
  cases T with
  | leaf => rfl
  | node c l x r =>
      have hx : x ∈ A := h.mem.mpr (Or.inl (by simp [RBTree.toList]))
      rw [rootOf, Rb.isRedAt, if_neg (hA.ne_zero x hx), h.here.1, Option.map_some,
        RbNode.isRed_mk' (h.aligned_parentOf hA)]
      cases c <;> rfl

theorem Focus.root_ne_sibling {T : RBTree Addr} {f : Frame Addr} (h : Focus A m₀ t T (f :: P))
    (hT : T.isRed) : rootOf f.sibling ≠ rootOf T := by
  have hroot : rootOf T ∈ T.toList := by
    cases T with
    | leaf => simp [RBTree.isRed] at hT
    | node c l x r => simp [rootOf, RBTree.toList]
  cases hs : f.sibling with
  | leaf => exact (hA.ne_zero _ (h.mem.mpr (Or.inl hroot))).symm
  | node c l y r =>
      have hdisjoint := List.disjoint_of_nodup_append (h.nodup hA)
      intro heq
      refine hdisjoint hroot (List.mem_cons_of_mem _ (List.mem_append_left _ ?_))
      rw [← heq, hs]
      simp [rootOf, RBTree.toList]

/-- A round with a red uncle recolours and goes on at the grandparent. -/
theorem Focus.round_recolor {d e : Side} {T s u : RBTree Addr} {x y : Addr} (hu : u.isRed)
    (h : Focus A m₀ t T (⟨d, .red, x, s⟩ :: ⟨e, .black, y, u⟩ :: P)) :
    ∃ t', rbInsertRound e t (rootOf T) x y = some (t', y) ∧
      Focus A m₀ t' (.branch e .red (.branch d .black T x s) y u.blacken) P := by
  have hup := focus_branch.mpr (focus_branch.mpr h)
  have hy := hup.node_branch
  rw [← RBTree.branch_other] at hup
  have hatUncle := focus_branch.mp hup
  have hred := hatUncle.isRedAt hA
  cases u with
  | leaf => simp [RBTree.isRed] at hu
  | node cu l v r =>
      obtain ⟨t₁, ht₁, h₁⟩ := Focus.setBlack (d := .left) hA hatUncle
      have h₁' := focus_branch.mpr h₁
      rw [RBTree.branch_other] at h₁'
      obtain ⟨t₂, ht₂, h₂⟩ := (focus_branch.mp h₁').setBlack hA
      obtain ⟨t₃, ht₃, h₃⟩ := (focus_branch.mpr h₂).setRed hA
      refine ⟨t₃, ?_, h₃⟩
      simp only [rootOf] at hred
      simp [rbInsertRound, hy, rootOf, hred, hu, ht₁, ht₂, ht₃]

/-- A round with a black uncle, or none, rotates and goes on at a child of the black node that takes
the grandparent's place. -/
theorem Focus.round_rotate {d e : Side} {T s u : RBTree Addr} {x y : Addr} (hu : u.isRed = false)
    (hT : T.isRed) (h : Focus A m₀ t T (⟨d, .red, x, s⟩ :: ⟨e, .black, y, u⟩ :: P)) :
    ∃ t' Z f, rbInsertRound e t (rootOf T) x y = some (t', rootOf Z) ∧ Z.isRed ∧ f.color = .black ∧
      Focus A m₀ t' Z (f :: P) ∧ plug Z (f :: P) = plug (restructure T d e x s y u) P := by
  have hatParent := focus_branch.mpr h
  have hup := focus_branch.mpr hatParent
  have hx := hatParent.node_branch
  have hy := hup.node_branch
  have hred : t.isRedAt (rootOf u) = some false := by
    rw [← hu]
    rw [← RBTree.branch_other] at hup
    exact (focus_branch.mp hup).isRedAt hA
  by_cases hde : d = e
  · subst hde
    have hne : rootOf s ≠ rootOf T := h.root_ne_sibling hA hT
    obtain ⟨t₁, ht₁, h₁⟩ := hatParent.setBlack hA
    obtain ⟨t₂, ht₂, h₂⟩ := (focus_branch.mpr h₁).setRed hA
    rw [← RBTree.branch_other, ← RBTree.branch_other d .black] at h₂
    obtain ⟨t₃, ht₃, h₃⟩ := h₂.rotate hA
    rw [RBTree.branch_other, RBTree.branch_other] at h₃
    refine ⟨t₃, T, ⟨d, .black, x, .branch d .red s y u⟩, ?_, hT, rfl, focus_branch.mp h₃, ?_⟩
    · simp [rbInsertRound, hx, hy, hred, hne, ht₁, ht₂, ht₃]
    · simp [restructure, plug]
  · obtain rfl := Side.eq_other_of_ne hde
    cases T with
    | leaf => simp [RBTree.isRed] at hT
    | node ct l' z r' =>
        obtain ⟨l, r, hlr⟩ := RBTree.node_eq_branch e ct l' z r'
        rw [RBTree.branch_other, hlr] at hatParent
        rw [hlr, rootOf_branch]
        have hx := hatParent.node_branch
        rw [rootOf_branch] at hx
        obtain ⟨t₀, ht₀, h₀⟩ := hatParent.rotate hA
        obtain ⟨t₁, ht₁, h₁⟩ := h₀.setBlack hA
        obtain ⟨t₂, ht₂, h₂⟩ := (focus_branch.mpr h₁).setRed hA
        rw [← RBTree.branch_other, ← RBTree.branch_other e .black] at h₂
        obtain ⟨t₃, ht₃, h₃⟩ := h₂.rotate hA
        rw [RBTree.branch_other, RBTree.branch_other] at h₃
        refine ⟨t₃, .branch e .red s x l, ⟨e, .black, z, .branch e .red r y u⟩, ?_, ?_, rfl,
          focus_branch.mp h₃, ?_⟩
        · simp [rbInsertRound, hx, hy, hred, ht₀, ht₁, ht₂, ht₃]
        · cases e <;> rfl
        · cases e <;> simp [restructure, plug, RBTree.branch, Side.other]

theorem Focus.blackenRoot {T : RBTree Addr} (h : Focus A m₀ t T []) (hT : T ≠ .leaf) :
    ∃ t', t.update t.root RbNode.setBlack = some t' ∧ Focus A m₀ t' T.blacken [] := by
  cases T with
  | leaf => exact absurd rfl hT
  | node c l x r =>
      rw [show t.root = x from h.around]
      exact Focus.setBlack (d := .left) hA h

/-- The loop ends at a red node that has no parent or a black one. -/
theorem Focus.rbInsertColor_exit {T : RBTree Addr} (h : Focus A m₀ t T P) (hT : T.isRed)
    (hP : ∀ f ∈ P.head?, f.color = .black) (n : Nat) :
    ∃ t', rbInsertColor (n + 1) t (rootOf T) = some t' ∧ Focus A m₀ t' (plug T P).blacken [] := by
  have hne : plug T P ≠ .leaf := by
    intro hleaf
    have hnil : A = [] := by rw [← h.elems, hleaf, RBTree.toList]
    cases T with
    | leaf => simp [RBTree.isRed] at hT
    | node c l x r =>
        have := h.mem.mpr (Or.inl (show x ∈ (RBTree.node c l x r).toList by simp [RBTree.toList]))
        simp [hnil] at this
  obtain ⟨t', ht', h'⟩ := h.toRoot.blackenRoot hA hne
  refine ⟨t', ?_, h'⟩
  have hnode : ∃ l r, t.node (rootOf T) = some (.mk' (parentOf P) .red .left l r) := by
    cases T with
    | leaf => simp [RBTree.isRed] at hT
    | node c l x r =>
        cases c with
        | red => exact ⟨_, _, h.here.1⟩
        | black => simp [RBTree.isRed] at hT
  obtain ⟨l, r, hnode⟩ := hnode
  have hparent : (.mk' (parentOf P) .red .left l r : RbNode).parent = parentOf P :=
    RbNode.parent_mk' (h.aligned_parentOf hA) ..
  have hred : t.isRedAt (parentOf P) = some false := by
    cases P with
    | nil => rfl
    | cons f P =>
        obtain ⟨d, c, x, s⟩ := f
        obtain rfl : c = .black := hP _ rfl
        have hred := (focus_branch.mpr h).isRedAt hA
        have hblack : (RBTree.branch d .black T x s).isRed = false := by cases d <;> rfl
        rwa [rootOf_branch, hblack] at hred
  simp only [rbInsertColor, hnode, hparent, hred, Option.bind_eq_bind, Option.bind_some,
    Bool.false_eq_true, and_false, if_false, ht']

/-- The loop's test under a red parent, which has a parent of its own. -/
theorem Focus.rbInsertColor_round {d e : Side} {T s u : RBTree Addr} {x y : Addr} (hT : T.isRed)
    (h : Focus A m₀ t T (⟨d, .red, x, s⟩ :: ⟨e, .black, y, u⟩ :: P)) (n : Nat) :
    rbInsertColor (n + 1) t (rootOf T) =
      (rbInsertRound e t (rootOf T) x y).bind fun r => rbInsertColor n r.1 r.2 := by
  have hatParent := focus_branch.mpr h
  have hatGrand := focus_branch.mpr hatParent
  have hred : (RBTree.branch d .red T x s).isRed := by cases d <;> rfl
  have hxmem : x ∈ (RBTree.branch d .red T x s).toList :=
    (toList_branch_perm ..).mem_iff.mpr List.mem_cons_self
  have hx0 : x ≠ 0 := hA.ne_zero x (hatParent.mem.mpr (Or.inl hxmem))
  have hxred := hatParent.isRedAt hA
  have hux := hatParent.root_ne_sibling hA hred
  rw [rootOf_branch] at hux
  rw [rootOf_branch, hred] at hxred
  obtain ⟨r, hr, hparent⟩ : ∃ r, t.node (rootOf T) = some r ∧ r.parent = x := by
    cases T with
    | leaf => simp [RBTree.isRed] at hT
    | node c l z r => exact ⟨_, h.here.1, RbNode.parent_mk' (h.aligned_parentOf hA) ..⟩
  have hgrand : (RbNode.mk' (parentOf (⟨e, .black, y, u⟩ :: P)) .red d (rootOf T) (rootOf s)).parent = y :=
    RbNode.parent_mk' (hatParent.aligned_parentOf hA) ..
  have hleft : (RbNode.mk' (parentOf P) .black e x (rootOf u)).rbLeft = if e = .left then x else rootOf u := by
    cases e <;> rfl
  have hy := hatGrand.node_branch
  rw [rootOf_branch] at hy
  simp only [rbInsertColor, hr, hparent, hxred, hatParent.node_branch, hgrand, hy, hleft, ne_eq, hx0,
    not_false_eq_true, and_self, if_true, Option.bind_eq_bind, Option.bind_some]
  cases e with
  | left => simp
  | right => simp [Ne.symm hux]

/-- The repair loop in memory, from a red subtree at a place for a black one, is the climb. -/
theorem Focus.rbInsertColor_spec {T : RBTree Addr} {n fuel : Nat} (h : Focus A m₀ t T P)
    (hP : Hole P .black n) (hT : Balanced T .red n) (hfuel : P.length < fuel) :
    ∃ t', rbInsertColor fuel t (rootOf T) = some t' ∧ Focus A m₀ t' (fixup T P) [] := by
  induction T, P using fixup.induct generalizing n fuel t with
  | case1 T =>
      obtain ⟨fuel, rfl⟩ := Nat.exists_eq_add_of_lt hfuel
      simpa [fixup, plug] using h.rbInsertColor_exit hA (hT.isRed_iff.mpr rfl) (by simp) fuel
  | case2 T f =>
      obtain ⟨fuel, rfl⟩ := Nat.exists_eq_add_of_lt hfuel
      have hf : f.color = .black := by
        cases hP with
        | underRed _ _ _ hp => cases hp
        | underBlack => rfl
      simpa [fixup] using h.rbInsertColor_exit hA (hT.isRed_iff.mpr rfl) (by simpa using hf) (1 + fuel)
  | case3 T f g P hc =>
      obtain ⟨fuel, rfl⟩ := Nat.exists_eq_add_of_lt hfuel
      simpa [fixup, hc] using h.rbInsertColor_exit hA (hT.isRed_iff.mpr rfl) (by simpa using hc) _
  | case4 T f g P hc hred ih =>
      obtain ⟨d, c, x, s⟩ := f
      obtain ⟨e, c', y, u⟩ := g
      obtain rfl : c = .red := hc
      cases hP with
      | underRed _ _ hs hP =>
          cases hP with
          | underBlack _ _ _ hu hP =>
              obtain ⟨fuel, rfl⟩ := Nat.exists_eq_add_of_lt hfuel
              obtain ⟨t₁, ht₁, h₁⟩ := h.round_recolor hA hred
              obtain ⟨t', ht', h'⟩ := @ih _ _ (P.length + 1 + 1 + fuel) h₁ hP (hT.recolor d e x y hs hu hred)
                (by omega)
              refine ⟨t', ?_, ?_⟩
              · rw [rootOf_branch] at ht'
                rw [List.length_cons, List.length_cons, h.rbInsertColor_round hA (hT.isRed_iff.mpr rfl), ht₁,
                  Option.bind_some]
                exact ht'
              · simpa [fixup, show u.isRed = true from hred] using h'
  | case5 T f g P hc hred =>
      obtain ⟨d, c, x, s⟩ := f
      obtain ⟨e, c', y, u⟩ := g
      obtain rfl : c = .red := hc
      cases hP with
      | underRed _ _ hs hP =>
          cases hP with
          | underBlack _ _ _ hu hP =>
              obtain ⟨fuel, rfl⟩ := Nat.exists_eq_add_of_lt hfuel
              have hu' : u.isRed = false := by simpa using hred
              have hTred := hT.isRed_iff.mpr rfl
              obtain ⟨t₁, Z, f, ht₁, hZ, hf, h₁, hplug⟩ := h.round_rotate hA hu' hTred
              obtain ⟨t', ht', h'⟩ := h₁.rbInsertColor_exit hA hZ (by simpa using hf) (P.length + 1 + fuel)
              refine ⟨t', ?_, ?_⟩
              · rw [List.length_cons, List.length_cons, h.rbInsertColor_round hA hTred, ht₁, Option.bind_some]
                have : P.length + 1 + 1 + fuel = P.length + 1 + fuel + 1 := by omega
                rw [this]
                exact ht'
              · simpa [fixup, hu', hplug] using h'

end Loop

end SimpDserver.NetHashmap
