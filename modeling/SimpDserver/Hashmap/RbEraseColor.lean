import SimpDserver.Hashmap.RbErase
import SimpDserver.Hashmap.RbShape
import SimpDserver.Lib.RedBlackErase

/-!
# The repair loop of an erasure

In memory the loop starts from a subtree that may be one black level short of its place, and either the
gap moves up or a rotation closes it. A round sees the sibling in one of three ways: red, black without
a red child, black with one.
-/

namespace SimpDserver.NetHashmap

open RedBlack

namespace RbNode

theorem color_mk' {p : Addr} (hp : Aligned p) (c : Color) (d : Side) (near far : Addr) :
    (mk' p c d near far).color = colorBit c := by
  rw [color, rbParentColor_mk', BitVec.and_or_distrib_right, and_low hp (by decide)]
  cases c <;> decide

theorem setColor_mk' {p : Addr} (hp : Aligned p) (c c' : Color) (d : Side) (near far : Addr) :
    (mk' p c d near far).setColor (colorBit c') = mk' p c' d near far := by
  have hbits : (p ||| colorBit c) &&& ~~~1#64 ||| colorBit c' = p ||| colorBit c' := by
    rw [BitVec.and_or_distrib_right, and_not_of_and_eq_zero (and_low hp (by decide))]
    cases c <;> simp [colorBit]
  cases d <;> simp only [mk', setColor, hbits]

end RbNode

variable {A : List Addr} {m₀ : Addr → Option RbNode} {t : Rb} {P : Path Addr}

/-- Going over to the sibling. -/
theorem focus_sibling {d : Side} {c : Color} {x : Addr} {T s : RBTree Addr} :
    Focus A m₀ t T (⟨d, c, x, s⟩ :: P) ↔ Focus A m₀ t s (⟨d.other, c, x, T⟩ :: P) := by
  rw [← focus_branch, ← focus_branch, RBTree.branch_other]

theorem focus_plug {T : RBTree Addr} {Q : Path Addr} :
    Focus A m₀ t (plug T Q) P ↔ Focus A m₀ t T (Q ++ P) := by
  induction Q generalizing T with
  | nil => rfl
  | cons f Q ih => exact ih.trans focus_branch

theorem rootOf_plug_mem (T : RBTree Addr) (f : Frame Addr) (P : Path Addr) :
    rootOf (plug T (f :: P)) ∈ Path.elems (f :: P) := by
  induction P generalizing T f with
  | nil => simp [plug, Path.elems]
  | cons g P ih => exact List.mem_cons_of_mem _ (List.mem_append_right _ (ih _ g))

theorem Focus.root_mem {T : RBTree Addr} {f : Frame Addr} (h : Focus A m₀ t T (f :: P)) :
    t.root ∈ Path.elems (f :: P) := by
  rw [show t.root = rootOf (plug T (f :: P)) from h.toRoot.around]
  exact rootOf_plug_mem ..

section Usable

variable (hA : Usable A)
include hA

theorem Focus.rootOf_not_mem {T : RBTree Addr} (h : Focus A m₀ t T P) : rootOf T ∉ Path.elems P := by
  intro hmem
  cases T with
  | leaf => exact hA.ne_zero 0 (h.mem.mpr (Or.inr hmem)) rfl
  | node c l x r =>
      have hx : x ∈ (RBTree.node c l x r).toList := by simp [RBTree.toList]
      exact List.disjoint_of_nodup_append (h.nodup hA) hx hmem

theorem Focus.branch_ne_zero {d : Side} {c : Color} {near far : RBTree Addr} {x : Addr}
    (h : Focus A m₀ t (.branch d c near x far) P) : x ≠ 0 :=
  hA.ne_zero x (h.mem.mpr (Or.inl ((toList_branch_perm ..).mem_iff.mpr List.mem_cons_self)))

theorem Focus.setColor {d : Side} {c : Color} {near far : RBTree Addr} {x : Addr} (c' : Color)
    (h : Focus A m₀ t (.branch d c near x far) P) :
    ∃ t', t.update x (RbNode.setColor (colorBit c')) = some t' ∧ Focus A m₀ t' (.branch d c' near x far) P :=
  h.update_color hA fun _ _ => RbNode.setColor_mk' (h.aligned_parentOf hA) ..

theorem Focus.hasRedChild {d : Side} {c : Color} {near far : RBTree Addr} {x : Addr}
    (h : Focus A m₀ t (.branch d c near x far) P) :
    t.hasRedChild x = some (near.isRed || far.isRed) := by
  have hnear := (focus_branch.mp h).isRedAt hA
  have hfar := (focus_sibling.mp (focus_branch.mp h)).isRedAt hA
  rw [Rb.hasRedChild, h.node_branch]
  cases d with
  | left =>
      simp only [RbNode.mk', Option.bind_eq_bind, Option.bind_some, hnear, hfar]
      cases near.isRed <;> simp
  | right =>
      simp only [RbNode.mk', Option.bind_eq_bind, Option.bind_some, hnear, hfar]
      cases far.isRed <;> simp

/-! ### One round -/

variable {d : Side} {c : Color} {T near far : RBTree Addr} {x y : Addr}

/-- A black sibling without a red child turns red, and the next round starts from the parent. -/
theorem Focus.eraseBlack_up (h : Focus A m₀ t T (⟨d, c, x, .branch d .black near y far⟩ :: P))
    (hnear : near.isRed = false) (hfar : far.isRed = false) :
    ∃ t', rbEraseBlack d t x y = some (t', some (x, parentOf P)) ∧
      Focus A m₀ t' (.branch d c T x (.branch d .red near y far)) P := by
  have hsibling := focus_sibling.mp h
  have hred := hsibling.hasRedChild hA
  obtain ⟨t₁, ht₁, h₁⟩ := hsibling.setRed hA
  have hup := focus_branch.mpr (focus_sibling.mpr h₁)
  refine ⟨t₁, ?_, hup⟩
  have hparent : (RbNode.mk' (parentOf P) c d (rootOf T) y).parent = parentOf P :=
    RbNode.parent_mk' (hup.aligned_parentOf hA) ..
  have hx := hup.node_branch
  rw [rootOf_branch] at hx
  simp [rbEraseBlack, hred, hnear, hfar, ht₁, hx, hparent]

/-- The rotation at the parent when the far child of the sibling is red. -/
theorem Focus.rbEraseLend_spec {cs : Color} (h : Focus A m₀ t T (⟨d, c, x, .branch d cs near y far⟩ :: P))
    (hfar : far.isRed = true) :
    ∃ t', rbEraseLend d t x y = some t' ∧
      Focus A m₀ t' (.branch d c (.branch d .black T x near) y far.blacken) P := by
  have hparent := (focus_branch.mpr h).node_branch
  have hcolor : (RbNode.mk' (parentOf P) c d (rootOf T) y).color = colorBit c :=
    RbNode.color_mk' ((focus_branch.mpr h).aligned_parentOf hA) ..
  rw [rootOf_branch] at hparent
  -- the sibling takes the parent's colour, the parent and the far child turn black
  obtain ⟨t₁, ht₁, h₁⟩ := (focus_sibling.mp h).setColor hA c
  obtain ⟨t₂, ht₂, h₂⟩ := (focus_branch.mpr (focus_sibling.mpr h₁)).setBlack hA
  have hsibling := focus_sibling.mp (focus_branch.mp h₂)
  have hy := hsibling.node_branch
  cases far with
  | leaf => simp [RBTree.isRed] at hfar
  | node cf l v r =>
      obtain ⟨t₃, ht₃, h₃⟩ := Focus.setBlack (d := .left) hA (focus_sibling.mp (focus_branch.mp hsibling))
      have hatParent := focus_branch.mpr (focus_sibling.mpr (focus_branch.mpr (focus_sibling.mpr h₃)))
      obtain ⟨t₄, ht₄, h₄⟩ := hatParent.rotate hA
      refine ⟨t₄, ?_, h₄⟩
      rw [rootOf_node] at hy
      simp [rbEraseLend, hparent, hcolor, ht₁, ht₂, hy, ht₃, ht₄]

theorem Focus.eraseBlack_far (h : Focus A m₀ t T (⟨d, c, x, .branch d .black near y far⟩ :: P))
    (hfar : far.isRed = true) :
    ∃ t', rbEraseBlack d t x y = some (t', none) ∧
      Focus A m₀ t' (.branch d c (.branch d .black T x near) y far.blacken) P := by
  have hsibling := focus_sibling.mp h
  have hred := hsibling.hasRedChild hA
  have hfarRed := (focus_sibling.mp (focus_branch.mp hsibling)).isRedAt hA
  have hy := hsibling.node_branch
  obtain ⟨t', ht', h'⟩ := h.rbEraseLend_spec hA hfar
  refine ⟨t', ?_, h'⟩
  simp [rbEraseBlack, hred, hfar, hy, hfarRed, ht']

/-- When only the near child of the sibling is red, it is rotated up first. -/
theorem Focus.eraseBlack_near {a b : RBTree Addr} {z : Addr}
    (h : Focus A m₀ t T (⟨d, c, x, .branch d .black (.branch d .red a z b) y far⟩ :: P))
    (hfar : far.isRed = false) :
    ∃ t', rbEraseBlack d t x y = some (t', none) ∧
      Focus A m₀ t' (.branch d c (.branch d .black T x a) z (.branch d .black b y far)) P := by
  have hsibling := focus_sibling.mp h
  have hred := hsibling.hasRedChild hA
  rw [(RBTree.isRed_branch d .red a z b).mpr rfl] at hred
  have hfarRed := (focus_sibling.mp (focus_branch.mp hsibling)).isRedAt hA
  have hy := hsibling.node_branch
  obtain ⟨t₁, ht₁, h₁⟩ := (focus_branch.mp hsibling).setBlack hA
  obtain ⟨t₂, ht₂, h₂⟩ := (focus_branch.mpr h₁).setRed hA
  rw [← RBTree.branch_other, ← RBTree.branch_other d .black] at h₂
  obtain ⟨t₃, ht₃, h₃⟩ := h₂.rotate hA
  rw [RBTree.branch_other, RBTree.branch_other] at h₃
  have hparent := (focus_branch.mpr (focus_sibling.mpr h₃)).node_branch
  rw [rootOf_branch] at hparent
  have hbranch : (RBTree.branch d .red b y far).isRed = true := (RBTree.isRed_branch ..).mpr rfl
  obtain ⟨t', ht', h'⟩ := (focus_sibling.mpr h₃).rbEraseLend_spec hA hbranch
  rw [RBTree.blacken_branch] at h'
  refine ⟨t', ?_, h'⟩
  simp only [rootOf_branch] at hy
  simp [rbEraseBlack, hred, hy, hfarRed, hfar, ht₁, ht₂, ht₃, hparent, ht']

/-- A red sibling is rotated up, and the round goes on with its near child as the sibling. -/
theorem Focus.eraseRound_red (h : Focus A m₀ t T (⟨d, .black, x, .branch d .red near y far⟩ :: P)) :
    ∃ t', rbEraseRound d t x = rbEraseBlack d t' x (rootOf near) ∧
      Focus A m₀ t' T (⟨d, .red, x, near⟩ :: ⟨d, .black, y, far⟩ :: P) := by
  have hparent := (focus_branch.mpr h).node_branch
  have hsibling := focus_sibling.mp h
  have hred : (RbNode.mk' (parentOf (⟨d.other, .black, x, T⟩ :: P)) .red d (rootOf near) (rootOf far)).isRed = true :=
    RbNode.isRed_mk' (hsibling.aligned_parentOf hA) ..
  obtain ⟨t₁, ht₁, h₁⟩ := hsibling.setBlack hA
  obtain ⟨t₂, ht₂, h₂⟩ := (focus_branch.mpr (focus_sibling.mpr h₁)).setRed hA
  obtain ⟨t₃, ht₃, h₃⟩ := h₂.rotate hA
  refine ⟨t₃, ?_, focus_branch.mp (focus_branch.mp h₃)⟩
  have hx := (focus_branch.mp h₃).node_branch
  rw [rootOf_branch] at hparent
  simp [rbEraseRound, hparent, hsibling.node_branch, hred, ht₁, ht₂, ht₃, hx]

theorem Focus.eraseRound_black (h : Focus A m₀ t T (⟨d, c, x, .branch d .black near y far⟩ :: P)) :
    rbEraseRound d t x = rbEraseBlack d t x y := by
  have hparent := (focus_branch.mpr h).node_branch
  have hsibling := focus_sibling.mp h
  have hblack : (RbNode.mk' (parentOf (⟨d.other, c, x, T⟩ :: P)) .black d (rootOf near) (rootOf far)).isRed = false :=
    RbNode.isRed_mk' (hsibling.aligned_parentOf hA) ..
  rw [rootOf_branch] at hparent
  simp [rbEraseRound, hparent, hsibling.node_branch, hblack]

/-! ### The loop -/

theorem Focus.setBlackAt (h : Focus A m₀ t T P) :
    ∃ t', t.setBlackAt (rootOf T) = some t' ∧ Focus A m₀ t' T.blacken P := by
  cases T with
  | leaf => exact ⟨t, if_pos rfl, h⟩
  | node c l x r =>
      obtain ⟨t', ht', h'⟩ := Focus.setBlack (d := .left) hA h
      have hx : x ≠ 0 := Focus.branch_ne_zero (d := .left) hA h
      exact ⟨t', by rw [rootOf_node, Rb.setBlackAt, if_neg hx, ht'], h'⟩

/-- The loop ends at a red node and at the root, which turn black. -/
theorem Focus.rbEraseColor_exit (h : Focus A m₀ t T P) (hstop : T.isRed = true ∨ P = []) (n : Nat) :
    ∃ t', rbEraseColor (n + 1) t (rootOf T) (parentOf P) = some t' ∧ Focus A m₀ t' (plug T.blacken P) [] := by
  have htest : ¬(!T.isRed ∧ rootOf T ≠ t.root) := by
    rintro ⟨hblack, hne⟩
    obtain hT | rfl := hstop
    · simp [hT] at hblack
    · exact hne h.around.symm
  obtain ⟨t', ht', h'⟩ := h.setBlackAt hA
  refine ⟨t', ?_, h'.toRoot⟩
  rw [rbEraseColor, h.isRedAt hA, Option.bind_eq_bind, Option.bind_some, if_neg htest, ht']

/-- What the loop does with the outcome of a round. -/
def rbEraseNext (n : Nat) (r : Rb × Option (Addr × Addr)) : Option Rb :=
  match r with
  | (t, some (node, parent)) => rbEraseColor n t node parent
  | (t, none) => t.setBlackAt t.root

theorem Focus.rbEraseColor_round {cs : Color} (h : Focus A m₀ t T (⟨d, c, x, .branch d cs near y far⟩ :: P))
    (hT : T.isRed = false) (n : Nat) :
    rbEraseColor (n + 1) t (rootOf T) x = (rbEraseRound d t x).bind (rbEraseNext n) := by
  have hred := h.isRedAt hA
  have hroot : rootOf T ≠ t.root := (ne_of_mem_of_not_mem h.root_mem (h.rootOf_not_mem hA)).symm
  have hne : y ≠ rootOf T := by
    refine ne_of_mem_of_not_mem ?_ (h.rootOf_not_mem hA)
    refine List.mem_cons_of_mem _ (List.mem_append_left _ ?_)
    exact (toList_branch_perm ..).mem_iff.mpr List.mem_cons_self
  have hparent := (focus_branch.mpr h).node_branch
  rw [rootOf_branch] at hparent
  rw [rbEraseColor]
  cases d with
  | left => simp [hred, hT, hroot, hparent, RbNode.mk']; rfl
  | right => simp [hred, hT, hroot, hparent, RbNode.mk', hne]; rfl

/-- A round with a black sibling breaks out of the loop with the tree balanced, or moves the gap to the
parent. -/
theorem Focus.eraseBlack_spec {n : Nat} (h : Focus A m₀ t T (⟨d, c, x, .branch d .black near y far⟩ :: P))
    (hP : Hole (⟨d, c, x, .branch d .black near y far⟩ :: P) .black (n + 1)) (hT : Balanced T .black n) :
    (∃ t' T' m, rbEraseBlack d t x y = some (t', none) ∧ Focus A m₀ t' T' [] ∧ Balanced T' .black m) ∨
      ∃ t' s k, rbEraseBlack d t x y = some (t', some (x, parentOf P)) ∧
        Focus A m₀ t' (.branch d c T x s) P ∧ Lacking (.branch d c T x s) k ∧ Hole P .black (k + 1) := by
  cases hfar : far.isRed with
  | true =>
      left
      obtain ⟨t', ht', h'⟩ := h.eraseBlack_far hA hfar
      obtain ⟨m, hm⟩ := hP.far_red hT hfar
      exact ⟨t', _, m, ht', h'.toRoot, hm⟩
  | false =>
      cases hnear : near.isRed with
      | true =>
          left
          obtain rfl | ⟨cn, a, z, b, rfl⟩ := near.leaf_or_branch d
          · simp [RBTree.isRed] at hnear
          · obtain rfl := (RBTree.isRed_branch ..).mp hnear
            obtain ⟨t', ht', h'⟩ := h.eraseBlack_near hA hfar
            obtain ⟨m, hm⟩ := (hP.near_red hfar).far_red hT ((RBTree.isRed_branch ..).mpr rfl)
            rw [RBTree.blacken_branch] at hm
            exact ⟨t', _, m, ht', h'.toRoot, hm⟩
      | false =>
          right
          obtain ⟨t', ht', h'⟩ := h.eraseBlack_up hA hnear hfar
          obtain ⟨k, hk, hP'⟩ := hP.up hT hnear hfar
          exact ⟨t', _, k, ht', h', hk, hP'⟩

theorem rbEraseNext_none {T : RBTree Addr} {m : Nat} (h : Focus A m₀ t T []) (hT : Balanced T .black m) (n : Nat) :
    ∃ t', rbEraseNext n (t, none) = some t' ∧ Focus A m₀ t' T [] := by
  obtain ⟨t', ht', h'⟩ := h.setBlackAt hA
  rw [hT.blacken_of_black] at h'
  refine ⟨t', ?_, h'⟩
  rw [rbEraseNext, show t.root = rootOf T from h.around, ht']

/-- The repair loop, from a subtree that may lack a black level to a balanced tree. -/
theorem Focus.rbEraseColor_spec {n fuel : Nat} (h : Focus A m₀ t T P) (hP : Hole P .black (n + 1))
    (hT : Lacking T n) (hfuel : P.length < fuel) :
    ∃ t' T' m, rbEraseColor fuel t (rootOf T) (parentOf P) = some t' ∧ Focus A m₀ t' T' [] ∧
      Balanced T' .black m := by
  have hexit : ∀ {t T P n fuel}, Focus A m₀ t T P → Hole P .black (n + 1) → Lacking T n →
      (T.isRed = true ∨ P = []) → 0 < fuel →
      ∃ t' T' m, rbEraseColor fuel t (rootOf T) (parentOf P) = some t' ∧ Focus A m₀ t' T' [] ∧
        Balanced T' .black m := by
    intro t T P n fuel h hP hT hstop hfuel
    obtain ⟨fuel, rfl⟩ := Nat.exists_eq_succ_of_ne_zero hfuel.ne'
    obtain ⟨t', ht', h'⟩ := h.rbEraseColor_exit hA hstop fuel
    obtain ⟨m, hm⟩ := hT.close hP hstop
    exact ⟨t', _, m, ht', h', hm⟩
  induction P generalizing T n fuel t with
  | nil => exact hexit h hP hT (Or.inr rfl) (by omega)
  | cons f P ih =>
      cases hred : T.isRed with
      | true => exact hexit h hP hT (Or.inl hred) (by omega)
      | false =>
          obtain ⟨fuel, rfl⟩ := Nat.exists_eq_succ_of_ne_zero (Nat.ne_of_gt (Nat.zero_lt_of_lt hfuel))
          rw [List.length_cons] at hfuel
          obtain ⟨d, c, x, s⟩ := f
          obtain ⟨cs, near, y, far, rfl⟩ := hP.sibling
          rw [parentOf, h.rbEraseColor_round hA hred]
          cases cs with
          | black =>
              rw [h.eraseRound_black hA]
              obtain ⟨t₁, T₁, m, ht₁, h₁, hm⟩ | ⟨t₁, s, k, ht₁, h₁, hk, hP₁⟩ :=
                h.eraseBlack_spec hA hP (hT.balanced hred)
              · rw [ht₁, Option.bind_some]
                obtain ⟨t', ht', h'⟩ := rbEraseNext_none hA h₁ hm fuel
                exact ⟨t', T₁, m, ht', h', hm⟩
              · rw [ht₁, Option.bind_some]
                obtain ⟨t', T', m, ht', h', hm⟩ := ih h₁ hP₁ hk (by omega : P.length < fuel)
                rw [rootOf_branch] at ht'
                exact ⟨t', T', m, ht', h', hm⟩
          | red =>
              obtain ⟨rfl, hP₀, hnear⟩ := hP.red_sibling
              obtain ⟨t₀, heq, h₀⟩ := h.eraseRound_red hA
              obtain ⟨cn, a, z, b, rfl⟩ := hP₀.sibling
              obtain rfl : cn = .black := by
                cases cn with
                | red => rw [(RBTree.isRed_branch ..).mpr rfl] at hnear; cases hnear
                | black => rfl
              rw [heq, rootOf_branch]
              obtain ⟨t₁, T₁, m, ht₁, h₁, hm⟩ | ⟨t₁, s, k, ht₁, h₁, hk, hP₁⟩ :=
                h₀.eraseBlack_spec hA hP₀ (hT.balanced hred)
              · rw [ht₁, Option.bind_some]
                obtain ⟨t', ht', h'⟩ := rbEraseNext_none hA h₁ hm fuel
                exact ⟨t', T₁, m, ht', h', hm⟩
              · -- the gap is at a red node now
                rw [ht₁, Option.bind_some]
                obtain ⟨t', T', m, ht', h', hm⟩ := hexit h₁ hP₁ hk (Or.inl ((RBTree.isRed_branch ..).mpr rfl))
                  (by omega : 0 < fuel)
                rw [rootOf_branch] at ht'
                exact ⟨t', T', m, ht', h', hm⟩

end Usable

end SimpDserver.NetHashmap
