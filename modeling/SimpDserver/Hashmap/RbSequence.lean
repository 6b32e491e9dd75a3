import SimpDserver.Hashmap.RbUnlink

/-!
# The tree as a sequence

For its users the tree is a sequence of nodes: linking and repairing puts a node next to another one,
`rb_erase` takes one out, `rb_replace_node` exchanges one, and `rb_next` and `rb_prev` go to the
neighbours. The tree stays a balanced one under any run of the three, and memory outside of it is
untouched.
-/

namespace SimpDserver.NetHashmap

open RedBlack

/-- Memory holds a red-black tree whose nodes in order are `A`. -/
structure IsRbTree (t : Rb) (A : List Addr) : Prop where
  usable : Usable A
  tree : ∃ T n, Focus A t.node t T [] ∧ Balanced T .black n

variable {A : List Addr} {m₀ : Addr → Option RbNode} {t : Rb} {P : Path Addr}

theorem Focus.isRbTree {T : RBTree Addr} {n : Nat} (h : Focus A m₀ t T []) (hA : Usable A)
    (hT : Balanced T .black n) : IsRbTree t A :=
  ⟨hA, T, n, ⟨h.here, h.around, h.elems, fun _ _ => rfl⟩, hT⟩

/-- Every node has its place. -/
theorem IsRbTree.focus (h : IsRbTree t A) {a : Addr} (ha : a ∈ A) (d : Side) :
    ∃ c near far P n, Focus A t.node t (.branch d c near a far) P ∧
      Balanced (plug (.branch d c near a far) P) .black n := by
  obtain ⟨T, n, hT, hn⟩ := h.tree
  have hmem : a ∈ T.toList := by
    have helems := hT.elems
    rw [plug] at helems
    rwa [helems]
  obtain ⟨c, near, far, P, rfl⟩ := exists_plug_of_mem hmem d
  exact ⟨c, near, far, P, n, hT.ofRoot, hn⟩

theorem Focus.length_le {T : RBTree Addr} (h : Focus A m₀ t T P) : P.length + T.toList.length ≤ A.length := by
  rw [← h.elems, (toList_plug_perm T P).length_eq, List.length_append]
  have := Path.length_le_elems P
  omega

/-! ### Erasing -/

theorem Usable.sublist {A B : List Addr} (h : Usable A) (hsub : B.Sublist A) : Usable B where
  nodup := h.nodup.sublist hsub
  ne_zero a ha := h.ne_zero a (hsub.subset ha)
  aligned a ha := h.aligned a (hsub.subset ha)

/-- What the label `color` does with the place of an unlinked node that had one child. -/
theorem Focus.repair {s : RBTree Addr} {d : Side} {cw c' : Color} {w : Addr} {n fuel : Nat} (hA : Usable A)
    (h : Focus A m₀ t s P) (hP : Hole P c' n) (hw : Balanced (.branch d cw s w .leaf) c' n)
    (hfuel : P.length < fuel) :
    ∃ t' T m, (if colorBit cw = 1 then rbEraseColor fuel t (rootOf s) (parentOf P) else some t) = some t' ∧
      Focus A m₀ t' T [] ∧ Balanced T .black m := by
  obtain ⟨rfl, c₁, c₂, k, rfl, hs, -, h₁, -⟩ := hw.branch_inv
  cases c' with
  | red =>
      obtain rfl := h₁ rfl
      obtain ⟨m, hm⟩ := hP.black.plug hs
      exact ⟨t, _, m, if_neg (by decide), h.toRoot, hm⟩
  | black =>
      obtain ⟨t', T, m, ht', h', hm⟩ := h.rbEraseColor_spec hA hP hs.lacking hfuel
      exact ⟨t', T, m, by rw [if_pos (by decide), ht'], h', hm⟩

theorem erase_append_cons {xs ys : List Addr} {a : Addr} (h : (xs ++ a :: ys).Nodup) :
    (xs ++ a :: ys).erase a = xs ++ ys := by
  have ha : a ∉ xs := fun ha => (List.nodup_append.mp h).2.2 a ha a List.mem_cons_self rfl
  rw [List.erase_append_right _ ha, List.erase_cons_head]

theorem erase_plug {d : Side} {c : Color} {s : RBTree Addr} {x : Addr}
    (h : (plug (.branch d c s x .leaf) P).toList.Nodup) :
    (plug (.branch d c s x .leaf) P).toList.erase x = (plug s P).toList := by
  have hsplit : ∃ xs ys, (plug (.branch d c s x .leaf) P).toList = xs ++ x :: ys ∧ (plug s P).toList = xs ++ ys := by
    rw [toList_plug, toList_plug]
    cases d with
    | left => exact ⟨Path.before P ++ s.toList, Path.after P, by simp [RBTree.branch, RBTree.toList], by simp⟩
    | right => exact ⟨Path.before P, s.toList ++ Path.after P, by simp [RBTree.branch, RBTree.toList], rfl⟩
  obtain ⟨xs, ys, hx, hs⟩ := hsplit
  rw [hs, hx, erase_append_cons (hx ▸ h)]

theorem erase_plug_inner {c cw : Color} {l s : RBTree Addr} {v w : Addr} {Q : Path Addr}
    (hQ : ∀ f ∈ Q, f.side = .left)
    (h : (plug (.node c l v (plug (.branch .left cw .leaf w s) Q)) P).toList.Nodup) :
    (plug (.node c l v (plug (.branch .left cw .leaf w s) Q)) P).toList.erase v =
      (plug s (Q ++ ⟨.right, c, w, l⟩ :: P)).toList := by
  have hbefore : Path.before Q = [] := by
    simpa [Path.beyond] using Path.beyond_eq_nil hQ
  have hx : (plug (.node c l v (plug (.branch .left cw .leaf w s) Q)) P).toList =
      (Path.before P ++ l.toList) ++ v :: (w :: (s.toList ++ Path.after Q) ++ Path.after P) := by
    simp [toList_plug, RBTree.toList, RBTree.branch, hbefore]
  rw [hx, erase_append_cons (hx ▸ h), plug_append]
  simp [toList_plug, Path.before, Path.after, hbefore]

/-- Unlinking leaves the sequence without the node, seen from a place where the black level of a node
of colour `cw` is missing. -/
theorem IsRbTree.rbUnlinkNode_spec {a : Addr} {fuel : Nat} (h : IsRbTree t A) (ha : a ∈ A) (hfuel : A.length ≤ fuel) :
    ∃ t₁ s P d cw w n, rbUnlinkNode fuel t a = some (t₁, rootOf s, parentOf P, colorBit cw) ∧
      Focus (A.erase a) t.node t₁ s P ∧ Balanced (plug (.branch d cw s w .leaf) P) .black n := by
  have hA := h.usable
  obtain ⟨c, l, r, P, n, hfocus, hn⟩ := h.focus ha .left
  have hnode : t.node a = some ⟨_, rootOf r, rootOf l⟩ := hfocus.node_branch
  have hlength := hfocus.length_le
  have hnodup := hA.nodup
  have hfirst := (toList_branch_perm .left c l a r).length_eq
  rw [List.length_cons, List.length_append] at hfirst
  have hleaf : rootOf (.leaf : RBTree Addr) = 0 := rfl
  rw [← hfocus.elems] at hnodup ⊢
  cases l with
  | leaf =>
      obtain ⟨t₁, ht₁, h₁⟩ := Focus.rbUnlink_spec (d := .right) hA hfocus
      refine ⟨t₁, r, P, .right, c, a, n, ?_, ?_, hn⟩
      · simp only [rbUnlinkNode, hnode, Option.bind_eq_bind, Option.bind_some]
        rw [if_pos hleaf, ht₁]
      · have herase : (plug (.branch .left c .leaf a r) P).toList.erase a = (plug r P).toList :=
          erase_plug (d := .right) hnodup
        rwa [herase]
  | node cl ll lx lr =>
      have hl0 : rootOf (.node cl ll lx lr) ≠ 0 :=
        Focus.branch_ne_zero (d := .left) hA (focus_branch.mp hfocus)
      cases hr : r with
      | leaf =>
          subst hr
          obtain ⟨t₁, ht₁, h₁⟩ := Focus.rbUnlink_spec hA hfocus
          refine ⟨t₁, _, P, .left, c, a, n, ?_, ?_, hn⟩
          · simp only [rbUnlinkNode, hnode, Option.bind_eq_bind, Option.bind_some]
            rw [if_neg hl0, if_pos hleaf, ht₁]
          · rwa [erase_plug hnodup]
      | node cr rl rx rr =>
          have hright := (focus_branch (d := .right)).mp hfocus
          have hne : r ≠ .leaf := by simp [hr]
          rw [← hr]
          have hr0 : rootOf r ≠ 0 := by
            rw [hr] at hright ⊢
            exact Focus.branch_ne_zero (d := .left) hA hright
          obtain ⟨cw, w, s, Q, hdown, hplug, hQ⟩ := hright.rbDown_spec hA .left hne
            ((height_le_length r).trans (by omega : r.toList.length ≤ fuel))
          subst hplug
          obtain ⟨t₁, ht₁, h₁⟩ := hfocus.rbUnlinkInner_spec hA hQ (by simp) hdown
          have hn' : Balanced (plug (.branch .left cw .leaf w s) (Q ++ ⟨.right, c, a, .node cl ll lx lr⟩ :: P))
              .black n := by
            rw [plug_append]
            exact hn
          obtain ⟨m, hm⟩ := hn'.replace w
          refine ⟨t₁, s, _, .right, cw, w, m, ?_, ?_, hm⟩
          · simp only [rbUnlinkNode, hnode, Option.bind_eq_bind, Option.bind_some]
            rw [if_neg hl0, if_neg hr0, ht₁]
          · have herase : (plug (.branch .left c (.node cl ll lx lr) a (plug (.branch .left cw .leaf w s) Q)) P).toList.erase
                a = (plug s (Q ++ ⟨.right, c, w, .node cl ll lx lr⟩ :: P)).toList := erase_plug_inner hQ hnodup
            rwa [herase]

/-- `rb_erase` takes a node out of the sequence and leaves a red-black tree; it writes to none but the
nodes that stay. -/
theorem IsRbTree.rbErase_spec {a : Addr} {fuel : Nat} (h : IsRbTree t A) (ha : a ∈ A) (hfuel : A.length ≤ fuel) :
    ∃ t', rbErase fuel t a = some t' ∧ IsRbTree t' (A.erase a) ∧ ∀ b, b ∉ A.erase a → t'.node b = t.node b := by
  have husable : Usable (A.erase a) := h.usable.sublist List.erase_sublist
  obtain ⟨t₁, s, P, d, cw, w, n, ht₁, h₁, hn⟩ := h.rbUnlinkNode_spec ha hfuel
  obtain ⟨c', n', hs, hP⟩ := hn.of_plug
  have hlength := h₁.length_le
  have herase := List.length_erase_of_mem ha
  have hpos := List.length_pos_of_mem ha
  obtain ⟨t', T, m, ht', h', hm⟩ := h₁.repair husable hP hs (by omega : P.length < fuel)
  refine ⟨t', ?_, h'.isRbTree husable hm, h'.outside⟩
  rw [rbErase, ht₁, Option.bind_eq_bind, Option.bind_some]
  exact ht'

/-! ### Walking -/

theorem IsRbTree.toList (h : IsRbTree t A) : ∃ T, Focus A t.node t T [] ∧ T.toList = A := by
  obtain ⟨T, -, hT, -⟩ := h.tree
  exact ⟨T, hT, hT.elems⟩

/-- Going down on side `d` ends at the first node met from there. -/
theorem Focus.rbDown_eq (hA : Usable A) (d : Side) {T : RBTree Addr} {fuel : Nat} (h : Focus A m₀ t T P)
    (hT : T ≠ .leaf) (hfuel : T.height ≤ fuel) :
    rbDown d t fuel (rootOf T) = some ((T.toward d.other).head?.getD 0) := by
  obtain ⟨c, x, s, Q, hdown, rfl, hQ⟩ := h.rbDown_spec hA d hT hfuel
  rw [hdown, toward_plug, Side.other_other, Path.beyond_eq_nil hQ, ← RBTree.branch_other, RBTree.toward_branch]
  simp

/-- Going up stops at the first node met behind the subtree. -/
theorem Focus.rbClimb_eq (hA : Usable A) (d : Side) {e : Side} {c : Color} {near far : RBTree Addr} {x : Addr}
    {fuel : Nat} (h : Focus A m₀ t (.branch e c near x far) P) (hfuel : P.length < fuel) :
    rbClimb d t fuel x = some ((Path.beyond d P).head?.getD 0) := by
  induction P generalizing e c near x far fuel with
  | nil =>
      obtain ⟨fuel, rfl⟩ := Nat.exists_eq_succ_of_ne_zero (Nat.ne_of_gt (Nat.zero_lt_of_lt hfuel))
      have hparent : (RbNode.mk' (parentOf []) c e (rootOf near) (rootOf far)).parent = parentOf [] :=
        RbNode.parent_mk' (h.aligned_parentOf hA) ..
      rw [rbClimb, h.node_branch, Option.bind_eq_bind, Option.bind_some, hparent, Path.beyond_nil]
      exact if_pos rfl
  | cons f P ih =>
      obtain ⟨fuel, rfl⟩ := Nat.exists_eq_succ_of_ne_zero (Nat.ne_of_gt (Nat.zero_lt_of_lt hfuel))
      rw [List.length_cons] at hfuel
      obtain ⟨e', c', y, s⟩ := f
      have hup := focus_branch.mpr h
      have hparent : (RbNode.mk' y c e (rootOf near) (rootOf far)).parent = y :=
        RbNode.parent_mk' (h.aligned_parentOf hA) ..
      have hx := h.node_branch
      have hy := hup.node_branch
      rw [parentOf] at hx
      rw [rootOf_branch] at hy
      have hy0 : y ≠ 0 := hup.branch_ne_zero hA
      simp only [rbClimb, hx, hparent, Option.bind_eq_bind, Option.bind_some, if_neg hy0, hy]
      by_cases hd : e' = d
      · subst hd
        rw [RbNode.child_mk', if_pos rfl, Path.beyond_cons]
        exact ih hup (by omega)
      · obtain rfl := Side.eq_other_of_ne hd
        have hne : x ≠ rootOf s := by
          have := (focus_sibling.mp h).rootOf_not_mem hA
          rw [Path.elems, List.mem_cons, List.mem_append, not_or, not_or,
            (toList_branch_perm ..).mem_iff, List.mem_cons, not_or] at this
          exact fun heq => this.2.1.1 heq.symm
        have hchild : (RbNode.mk' (parentOf P) c' d.other x (rootOf s)).child d = rootOf s := by
          rw [RbNode.mk'_other, RbNode.child_mk']
        rw [hchild, if_neg hne, Path.beyond_cons_other]
        rfl

theorem IsRbTree.rbEdge_eq (h : IsRbTree t A) (d : Side) {fuel : Nat} (hfuel : A.length ≤ fuel) :
    rbEdge d fuel t = some ((d.other.along A).head?.getD 0) := by
  obtain ⟨T, hT, rfl⟩ := h.toList
  have hroot : t.root = rootOf T := hT.around
  by_cases hleaf : T = .leaf
  · subst hleaf
    rw [rbEdge, hroot, if_pos (show rootOf .leaf = (0 : Addr) from rfl)]
    cases d <;> rfl
  · have hne : rootOf T ≠ 0 := by
      cases T with
      | leaf => exact absurd rfl hleaf
      | node c l x r => exact Focus.branch_ne_zero (d := .left) h.usable hT
    rw [rbEdge, hroot, if_neg hne]
    exact hT.rbDown_eq h.usable d hleaf ((height_le_length T).trans hfuel)

theorem append_cons_inj {xs xs' ys ys' : List Addr} {a : Addr} (h : xs ++ a :: ys = xs' ++ a :: ys')
    (hnodup : (xs ++ a :: ys).Nodup) : ys = ys' := by
  have ha : a ∉ xs := fun ha => (List.nodup_append.mp hnodup).2.2 a ha a List.mem_cons_self rfl
  have ha' : a ∉ ys := (List.nodup_cons.mp (List.nodup_append.mp hnodup).2.1).1
  exact ((List.append_cons_inj_of_notMem ha ha').mp h).2.2

/-- A step on side `d` leads to the next node there, or to none. -/
theorem IsRbTree.rbStep_eq (h : IsRbTree t A) (d : Side) {xs ys : List Addr} {a : Addr} {fuel : Nat}
    (hsplit : d.along A = xs ++ a :: ys) (hfuel : A.length ≤ fuel) :
    rbStep d fuel t a = some (ys.head?.getD 0) := by
  have hA := h.usable
  have ha : a ∈ A := by
    have hmem : a ∈ d.along A := by rw [hsplit]; simp
    cases d with
    | left => exact List.mem_reverse.mp hmem
    | right => exact hmem
  obtain ⟨c, near, far, P, n, hfocus, -⟩ := h.focus ha d
  have hys : ys = near.toward d ++ Path.beyond d P := by
    have halong := along_plug_branch d c near a far P
    rw [hfocus.elems, hsplit] at halong
    refine append_cons_inj halong ?_
    rw [← hsplit]
    cases d with
    | left => exact List.nodup_reverse.mpr hA.nodup
    | right => exact hA.nodup
  have hlength := hfocus.length_le
  rw [(toList_branch_perm ..).length_eq, List.length_cons, List.length_append] at hlength
  have hparent : (RbNode.mk' (parentOf P) c d (rootOf near) (rootOf far)).parent = parentOf P :=
    RbNode.parent_mk' (hfocus.aligned_parentOf hA) ..
  have hne : parentOf P ≠ a := by
    cases P with
    | nil => exact (hfocus.branch_ne_zero hA).symm
    | cons f P =>
        have hroot := hfocus.rootOf_not_mem hA
        rw [rootOf_branch] at hroot
        exact ne_of_mem_of_not_mem List.mem_cons_self hroot
  simp only [rbStep, hfocus.node_branch, Option.bind_eq_bind, Option.bind_some, hparent, if_neg hne,
    RbNode.child_mk']
  rw [hys]
  by_cases hleaf : near = .leaf
  · subst hleaf
    rw [RBTree.toward_leaf, List.nil_append]
    exact hfocus.rbClimb_eq hA d (by omega)
  · have hroot : rootOf near ≠ 0 := by
      cases near with
      | leaf => exact absurd rfl hleaf
      | node c' l x r => exact Focus.branch_ne_zero (d := .left) hA (focus_branch.mp hfocus)
    have hheight := height_le_length near
    rw [if_pos hroot, (focus_branch.mp hfocus).rbDown_eq hA d.other hleaf (by omega), Side.other_other]
    cases hnear : near.toward d with
    | nil =>
        have hlen : near.toList.length = 0 := by
          rw [show near.toList.length = (near.toward d).length by cases d <;> simp [RBTree.toward, Side.along], hnear]
          rfl
        cases near with
        | leaf => exact absurd rfl hleaf
        | node => simp [RBTree.toList] at hlen
    | cons x xs => rfl

end SimpDserver.NetHashmap
