import SimpDserver.Hashmap.RbEraseColor

/-!
# Unlinking a node

A node with a child missing gives its place to the other child. One with two children gives it to the
first node of its right subtree, which gives its own to its right child. Either way what is left is the
tree without the node, seen from the place where a black level may be missing.
-/

namespace SimpDserver.NetHashmap

open RedBlack

/-! ### A subtree below any parent -/

/-- The parent of what hangs at the end of the path when the path itself hangs under `p`. -/
def parentFrom (p : Addr) : Path Addr → Addr
  | [] => p
  | f :: _ => f.elem

/-- A path in memory whose topmost node has the parent `p`. -/
def ReprSeg (m : Addr → Option RbNode) (p : Addr) : (hole : Addr) → Path Addr → Prop
  | _, [] => True
  | hole, f :: Q =>
      m f.elem = some (.mk' (parentFrom p Q) f.color f.side hole (rootOf f.sibling)) ∧
        Repr m f.elem f.sibling ∧ ReprSeg m p f.elem Q

variable {m m' : Addr → Option RbNode}

theorem repr_plug {p : Addr} {T : RBTree Addr} {Q : Path Addr} :
    Repr m p (plug T Q) ↔ Repr m (parentFrom p Q) T ∧ ReprSeg m p (rootOf T) Q := by
  induction Q generalizing T with
  | nil => exact (and_iff_left trivial).symm
  | cons f Q ih =>
      rw [plug, ih, repr_branch, rootOf_branch, ReprSeg, parentFrom]
      tauto

theorem ReprSeg.congr {p hole : Addr} {Q : Path Addr} (h : ReprSeg m p hole Q)
    (hm : ∀ a ∈ Path.elems Q, m' a = m a) : ReprSeg m' p hole Q := by
  induction Q generalizing hole with
  | nil => trivial
  | cons f Q ih =>
      simp only [Path.elems, List.mem_cons, List.mem_append] at hm
      exact ⟨(hm _ (Or.inl rfl)).trans h.1, h.2.1.congr fun a ha => hm a (Or.inr (Or.inl ha)),
        ih h.2.2 fun a ha => hm a (Or.inr (Or.inr ha))⟩

/-- The root of a tree does not depend on a subtree further down. -/
theorem rootOf_plug_cons (T U : RBTree Addr) (f : Frame Addr) (Q : Path Addr) :
    rootOf (plug T (f :: Q)) = rootOf (plug U (f :: Q)) := by
  induction Q generalizing T U f with
  | nil => simp [plug]
  | cons g Q ih => exact ih _ _ g

variable {A : List Addr} {m₀ : Addr → Option RbNode} {t : Rb} {P : Path Addr}

/-! ### Going down -/

theorem height_branch (d : Side) (c : Color) (near : RBTree Addr) (x : Addr) (far : RBTree Addr) :
    (RBTree.branch d c near x far).height = max near.height far.height + 1 := by
  cases d with
  | left => rfl
  | right => exact congrArg (· + 1) (max_comm ..)

/-- Going down on side `d` ends at a node without a child there. -/
theorem Focus.rbDown_spec (hA : Usable A) (d : Side) {T : RBTree Addr} {fuel : Nat} (h : Focus A m₀ t T P)
    (hT : T ≠ .leaf) (hfuel : T.height ≤ fuel) :
    ∃ c x s Q, rbDown d t fuel (rootOf T) = some x ∧ T = plug (.branch d c .leaf x s) Q ∧
      ∀ f ∈ Q, f.side = d := by
  induction fuel generalizing T P with
  | zero =>
      cases T with
      | leaf => exact absurd rfl hT
      | node => simp [RBTree.height] at hfuel
  | succ fuel ih =>
      obtain rfl | ⟨c, near, x, far, rfl⟩ := T.leaf_or_branch d
      · exact absurd rfl hT
      · have hx := h.node_branch
        rw [height_branch] at hfuel
        obtain rfl | ⟨c', near', y, far', hnear⟩ := near.leaf_or_branch d
        · refine ⟨c, x, far, [], ?_, rfl, by simp⟩
          rw [rootOf_branch, rbDown, hx]
          simp [rootOf]
        · have hne : near ≠ .leaf := by
            rintro rfl
            cases d <;> cases hnear
          have hy : rootOf near ≠ 0 := by
            rw [hnear, rootOf_branch]
            exact (hnear ▸ focus_branch.mp h).branch_ne_zero hA
          obtain ⟨c₁, z, s, Q, hdown, hplug, hQ⟩ := ih (focus_branch.mp h) hne (by omega)
          refine ⟨c₁, z, s, Q ++ [⟨d, c, x, far⟩], ?_, ?_, ?_⟩
          · rw [rootOf_branch, rbDown, hx, Option.bind_eq_bind, Option.bind_some, RbNode.child_mk']
            simp only [ne_eq, hy, not_false_eq_true, if_true, hdown]
          · rw [plug_append, ← hplug]
            rfl
          · intro f hf
            rcases List.mem_append.mp hf with hf | hf
            · exact hQ f hf
            · rw [List.mem_singleton.mp hf]

/-! ### A node with a child missing -/

/-- The other child takes the place of a node that has none on side `d.other`. -/
theorem Focus.rbUnlink_spec (hA : Usable A) {d : Side} {c : Color} {s : RBTree Addr} {x : Addr}
    (h : Focus A m₀ t (.branch d c s x .leaf) P) :
    ∃ t', rbUnlink t x (rootOf s) = some (t', rootOf s, parentOf P, colorBit c) ∧
      Focus (plug s P).toList t.node t' s P := by
  have hnodup := h.nodup hA
  rw [((toList_branch_perm d c s x .leaf).append_right _).nodup_iff] at hnodup
  simp only [RBTree.toList, List.append_nil, List.cons_append, List.nodup_cons, List.mem_append, not_or,
    List.nodup_append] at hnodup
  obtain ⟨⟨-, hxP⟩, hs, hPnodup, hsP⟩ := hnodup
  have hmem : ∀ a, a ∈ s.toList ∨ a = x ∨ a ∈ Path.elems P → a ∈ A := by
    intro a ha
    rw [h.mem, (toList_branch_perm d c s x .leaf).mem_iff]
    simp only [RBTree.toList, List.append_nil, List.mem_cons]
    tauto
  obtain ⟨hx, hrs, -⟩ := repr_branch.mp h.here
  have haround := h.around
  rw [rootOf_branch] at haround
  obtain ⟨t₁, ht₁, hroot₁, hrs₁, hframe₁⟩ := reparent_spec (parentOf P) hrs (hA.aligned x (hmem x (by tauto))) hs
    fun a ha => hA.ne_zero a (hmem a (by tauto))
  have haround₁ : ReprPath t₁.node x t₁.root P := by
    rw [hroot₁]
    exact haround.congr fun a ha => hframe₁ a fun has => hsP a has a ha rfl
  obtain ⟨t₂, ht₂, haround₂, hframe₂⟩ := store_spec (rootOf s) haround₁ hPnodup
  rw [← relink_eq_store .left (rootOf s) haround₁ (fun a ha => hA.ne_zero a (hmem a (by tauto)))
    (hA.ne_zero x (hmem x (by tauto))) hxP] at ht₂
  have hal := h.aligned_parentOf hA
  refine ⟨t₂, ?_, ⟨?_, haround₂, rfl, ?_⟩⟩
  · change t.setParentAt (rootOf s) (parentOf P) = some t₁ at ht₁
    simp [rbUnlink, hx, RbNode.parent_mk' hal, RbNode.color_mk' hal, ht₁, ht₂]
  · exact hrs₁.congr fun a ha => hframe₂ a fun haP => hsP a ha a haP rfl
  · intro a ha
    rw [(toList_plug_perm ..).mem_iff, List.mem_append, not_or] at ha
    rw [hframe₂ a ha.2, hframe₁ a ha.1]

/-! ### A node with two children -/

/-- A node of another place takes over the parent, the colour and the left subtree of `old`. -/
theorem rbTakeOver_spec {c cw : Color} {l r : RBTree Addr} {old y w p q : Addr}
    (hold : t.node old = some (.mk' p c .left (rootOf l) y)) (hw : t.node w = some (.mk' q cw .left 0 (rootOf r)))
    (hl : Repr t.node old l) (hr : Repr t.node w r) (hne : old ≠ w) (hwl : w ∉ l.toList) (hwr : w ∉ r.toList)
    (holdl : old ∉ l.toList) (hlr : List.Disjoint l.toList r.toList) (hlnodup : l.toList.Nodup)
    (hzero : ∀ a ∈ l.toList, a ≠ 0) (haligned : Aligned old) (hleaf : l ≠ .leaf) :
    ∃ t', rbTakeOver t old w = some t' ∧ Repr t'.node p (.node c l w r) ∧ t'.root = t.root ∧
      ∀ a, a ≠ w → a ∉ l.toList → t'.node a = t.node a := by
  let t₁ : Rb := { t with node := Function.update t.node w (some (.mk' p c .left 0 (rootOf r))) }
  have ht₁ : t.update w (fun n => { n with rbParentColor := (RbNode.mk' p c .left (rootOf l) y).rbParentColor }) =
      some t₁ := by
    rw [Rb.update, hw]
    rfl
  let t₂ : Rb := { t₁ with node := Function.update t₁.node w (some (.mk' p c .left (rootOf l) (rootOf r))) }
  have ht₂ : t₁.update w (RbNode.setChild .left (rootOf l)) = some t₂ := by
    simp [Rb.update, t₁, t₂]
  have hframe₂ : ∀ a, a ≠ w → t₂.node a = t.node a := fun a ha =>
    (Function.update_of_ne ha ..).trans (Function.update_of_ne ha ..)
  have hl₂ : Repr t₂.node old l := hl.congr fun a ha => hframe₂ a (ne_of_mem_of_not_mem ha hwl)
  obtain ⟨t₃, ht₃, hroot₃, hl₃, hframe₃⟩ := reparent_spec w hl₂ haligned hlnodup hzero
  have hl0 : rootOf l ≠ 0 := by
    cases l with
    | leaf => exact absurd rfl hleaf
    | node c' l' x r' => exact hzero x (by simp [RBTree.toList])
  rw [if_pos hl0] at ht₃
  refine ⟨t₃, ?_, ⟨?_, hl₃, ?_⟩, hroot₃, ?_⟩
  · have hold₁ : t₁.node old = some (.mk' p c .left (rootOf l) y) := (Function.update_of_ne hne ..).trans hold
    have hold₂ := (hframe₂ old hne).trans hold
    simp only [rbTakeOver, hold, Option.bind_eq_bind, Option.bind_some, ht₁, hold₁]
    change (t₁.update w (RbNode.setChild .left (rootOf l))).bind _ = _
    rw [ht₂, Option.bind_some, hold₂, Option.bind_some]
    exact ht₃
  · rw [hframe₃ w hwl]
    exact Function.update_self ..
  · apply hr.congr
    intro a ha
    rw [hframe₃ a fun hal => hlr hal ha, hframe₂ a (ne_of_mem_of_not_mem ha hwr)]
  · intro a haw hal
    rw [hframe₃ a hal, hframe₂ a haw]

/-- The first node `w` of a right subtree leaves it. -/
theorem rbTakeOut_spec {cw : Color} {s : RBTree Addr} {old w : Addr} {Q : Path Addr} {p : Addr} {c : Color} {l : Addr}
    (hold : t.node old = some (.mk' p c .left l (rootOf (plug (.branch .left cw .leaf w s) Q))))
    (hr : Repr t.node old (plug (.branch .left cw .leaf w s) Q)) (hQ : ∀ f ∈ Q, f.side = .left)
    (husable : Usable (old :: w :: (s.toList ++ Path.elems Q))) :
    ∃ t' q, rbTakeOut t old w = some (t', parentFrom w Q) ∧ Repr t'.node w (plug s Q) ∧ t'.root = t.root ∧
      t'.node w = some (.mk' q cw .left 0 (rootOf (plug s Q))) ∧
      ∀ a, a ≠ w → a ∉ s.toList → a ∉ Path.elems Q → t'.node a = t.node a := by
  obtain ⟨hwr, hseg⟩ := repr_plug.mp hr
  obtain ⟨hw, -, hs⟩ := repr_branch.mp hwr
  rw [rootOf_branch] at hseg
  have hnodup := husable.nodup
  simp only [List.nodup_cons, List.mem_cons, List.mem_append, not_or, List.nodup_append] at hnodup
  obtain ⟨⟨holdw, holds, holdQ⟩, ⟨hws, hwQ⟩, hsnodup, hQnodup, hsQ⟩ := hnodup
  have haligned : ∀ a, a = old ∨ a = w ∨ a ∈ s.toList ∨ a ∈ Path.elems Q → Aligned a := fun a ha =>
    husable.aligned a (by simpa using ha)
  have hzero : ∀ a, a = old ∨ a = w ∨ a ∈ s.toList ∨ a ∈ Path.elems Q → a ≠ 0 := fun a ha =>
    husable.ne_zero a (by simpa using ha)
  cases Q with
  | nil =>
      refine ⟨t, old, ?_, hs, rfl, hw, fun _ _ _ _ => rfl⟩
      have hparent : (RbNode.mk' old cw .left (rootOf .leaf) (rootOf s)).parent = old :=
        RbNode.parent_mk' (haligned old (Or.inl rfl)) ..
      simp only [parentFrom] at hw
      simp [rbTakeOut, hw, hparent, parentFrom]
  | cons f Q =>
      obtain ⟨d, cf, x, sib⟩ := f
      obtain rfl : d = .left := hQ _ List.mem_cons_self
      obtain ⟨hx, hsib, hseg⟩ := hseg
      let f : Frame Addr := ⟨.left, cf, x, sib⟩
      have hxQ : x ∈ Path.elems (f :: Q) := List.mem_cons_self
      have hparent : (RbNode.mk' x cw .left (rootOf .leaf) (rootOf s)).parent = x :=
        RbNode.parent_mk' (haligned x (by tauto)) ..
      have hxs : x ∉ s.toList := fun h => hsQ x h x hxQ rfl
      have hxw : x ≠ w := ne_of_mem_of_not_mem hxQ hwQ
      have hxold : x ≠ old := ne_of_mem_of_not_mem hxQ holdQ
      have hroot : rootOf (plug (.branch .left cw .leaf w s) (f :: Q)) = rootOf (plug s (f :: Q)) :=
        rootOf_plug_cons ..
      -- the right child moves up
      obtain ⟨t₁, ht₁, hroot₁, hs₁, hframe₁⟩ := reparent_spec x hs (haligned w (by tauto)) hsnodup
        fun a ha => hzero a (by tauto)
      let t₂ : Rb :=
        { t₁ with node := Function.update t₁.node x (some (.mk' (parentFrom old Q) cf .left (rootOf s) (rootOf sib))) }
      have ht₂ : t₁.update x (RbNode.setChild .left (rootOf s)) = some t₂ := by
        rw [Rb.update, hframe₁ x hxs, hx]
        rfl
      have hframe₂ : ∀ a, a ≠ x → a ∉ s.toList → t₂.node a = t.node a := fun a hax has =>
        (Function.update_of_ne hax ..).trans (hframe₁ a has)
      have hrest : ∀ a ∈ sib.toList ++ Path.elems Q, t₂.node a = t.node a := by
        intro a ha
        rw [Path.elems, List.nodup_cons] at hQnodup
        exact hframe₂ a (ne_of_mem_of_not_mem ha hQnodup.1)
          fun has => hsQ a has a (List.mem_cons_of_mem _ ha) rfl
      have hr₂ : Repr t₂.node old (plug s (f :: Q)) := by
        refine repr_plug.mpr ⟨hs₁.update hxs, Function.update_self .., ?_, ?_⟩
        · exact hsib.congr fun a ha => hrest a (List.mem_append_left _ ha)
        · exact hseg.congr fun a ha => hrest a (List.mem_append_right _ ha)
      -- and the first node gets the subtree without itself
      have hmem : ∀ a, a ∈ (plug s (f :: Q)).toList ↔ a ∈ s.toList ∨ a ∈ Path.elems (f :: Q) := fun a => by
        rw [(toList_plug_perm ..).mem_iff, List.mem_append]
      have hwplug : w ∉ (plug s (f :: Q)).toList := fun h => by
        rcases (hmem w).mp h with h | h
        · exact hws h
        · exact hwQ h
      have hw₂ := (hframe₂ w hxw.symm hws).trans hw
      have hold₂ := (hframe₂ old hxold.symm holds).trans hold
      let t₃ : Rb := { t₂ with node := Function.update t₂.node w (some (.mk' x cw .left 0 (rootOf (plug s (f :: Q))))) }
      have ht₃ : t₂.update w (RbNode.setChild .right (rootOf (plug s (f :: Q)))) = some t₃ := by
        rw [Rb.update, hw₂]
        rfl
      have hold₃ : t₃.node old = t₂.node old := Function.update_of_ne holdw ..
      have hplugNodup : (plug s (f :: Q)).toList.Nodup := by
        rw [(toList_plug_perm ..).nodup_iff, List.nodup_append]
        exact ⟨hsnodup, hQnodup, hsQ⟩
      obtain ⟨t₄, ht₄, hroot₄, hr₄, hframe₄⟩ := reparent_spec (t := t₃) w (hr₂.update hwplug)
        (haligned old (Or.inl rfl)) hplugNodup fun a ha => hzero a (by have := (hmem a).mp ha; tauto)
      have hplug0 : rootOf (plug s (f :: Q)) ≠ 0 :=
        hzero _ (Or.inr (Or.inr (Or.inr (rootOf_plug_mem ..))))
      rw [if_pos hplug0] at ht₄
      refine ⟨t₄, x, ?_, hr₄, hroot₄.trans hroot₁, ?_, ?_⟩
      · rw [hroot] at hold₂
        change t.setParentAt (rootOf s) x = some t₁ at ht₁
        simp only [rbTakeOut, hw, Option.bind_eq_bind, Option.bind_some, hparent, if_neg hxold, parentFrom]
        change (t.setParentAt (rootOf s) x).bind _ = _
        rw [ht₁, Option.bind_some]
        change (t₁.update x (RbNode.setChild .left (rootOf s))).bind _ = _
        rw [ht₂, Option.bind_some, hold₂, Option.bind_some]
        change (t₂.update w (RbNode.setChild .right (rootOf (plug s (f :: Q))))).bind _ = _
        rw [ht₃, Option.bind_some, hold₃, hold₂, Option.bind_some]
        change (t₃.update (rootOf (plug s (f :: Q))) _).bind _ = _
        rw [ht₄]
        rfl
      · rw [hframe₄ w hwplug]
        exact Function.update_self ..
      · intro a haw has haQ
        rw [hframe₄ a fun h => ((hmem a).mp h).elim has haQ]
        refine (Function.update_of_ne haw ..).trans (hframe₂ a ?_ has)
        rintro rfl
        exact haQ hxQ

/-- A node with two children gives its place to the first node of its right subtree, whose own place
goes to its right child. -/
theorem Focus.rbUnlinkInner_spec (hA : Usable A) {c cw : Color} {l s : RBTree Addr} {v w : Addr} {Q : Path Addr}
    {fuel : Nat} (h : Focus A m₀ t (.node c l v (plug (.branch .left cw .leaf w s) Q)) P)
    (hQ : ∀ f ∈ Q, f.side = .left) (hl : l ≠ .leaf)
    (hdown : rbDown .left t fuel (rootOf (plug (.branch .left cw .leaf w s) Q)) = some w) :
    ∃ t', rbUnlinkInner fuel t v =
        some (t', rootOf s, parentOf (Q ++ ⟨.right, c, w, l⟩ :: P), colorBit cw) ∧
      Focus (plug s (Q ++ ⟨.right, c, w, l⟩ :: P)).toList t.node t' s (Q ++ ⟨.right, c, w, l⟩ :: P) := by
  have hperm : ((RBTree.node c l v (plug (.branch .left cw .leaf w s) Q)).toList ++ Path.elems P).Perm
      (v :: w :: (l.toList ++ (s.toList ++ (Path.elems Q ++ Path.elems P)))) := by
    refine ((toList_branch_perm .left ..).append_right _).trans ?_
    refine ((((toList_plug_perm ..).append_left _).append_right _).cons v).trans ?_
    rw [RBTree.branch, RBTree.toList, RBTree.toList]
    refine List.Perm.cons v ?_
    simp only [List.nil_append, List.cons_append, List.append_assoc]
    exact List.perm_middle
  have husable : Usable (v :: w :: (l.toList ++ (s.toList ++ (Path.elems Q ++ Path.elems P)))) := by
    apply hA.perm
    rw [← h.elems]
    exact (toList_plug_perm ..).trans hperm
  have hnodup := husable.nodup
  simp only [List.nodup_cons, List.mem_cons, List.mem_append, not_or, List.nodup_append] at hnodup
  obtain ⟨⟨hvw, hvl, hvs, hvQ, hvP⟩, ⟨hwl, hws, hwQ, hwP⟩, hlnodup, ⟨hsnodup, ⟨hQnodup, hPnodup, hQP⟩, hsQP⟩, hlsQP⟩ :=
    hnodup
  have hplug : ∀ a, a ∈ (plug s Q).toList ↔ a ∈ s.toList ∨ a ∈ Path.elems Q := fun a => by
    rw [(toList_plug_perm ..).mem_iff, List.mem_append]
  obtain ⟨hv, hrl, hrr⟩ := h.here
  have hal := h.aligned_parentOf hA
  -- the pointer to the node leads to the first node of its right subtree
  obtain ⟨t₁, ht₁, haround₁, hframe₁⟩ := store_spec w h.around hPnodup
  rw [← relink_eq_store .left w h.around (fun a ha => husable.ne_zero a (by simp [ha]))
    (husable.ne_zero _ List.mem_cons_self) hvP, rootOf_node] at ht₁
  have hr₁ : Repr t₁.node v (plug (.branch .left cw .leaf w s) Q) := by
    apply hrr.congr
    intro a ha
    apply hframe₁
    rw [(toList_plug_perm ..).mem_iff, RBTree.branch, RBTree.toList, RBTree.toList] at ha
    simp only [List.nil_append, List.cons_append, List.mem_cons, List.mem_append] at ha
    rcases ha with rfl | ha | ha
    · exact hwP
    · exact fun haP => hsQP a ha a (Or.inr haP) rfl
    · exact fun haP => hQP a ha a haP rfl
  have hv₁ := (hframe₁ v hvP).trans hv
  obtain ⟨t₂, q, ht₂, hr₂, hroot₂, hw₂, hframe₂⟩ := rbTakeOut_spec hv₁ hr₁ hQ {
    nodup := by
      simp only [List.nodup_cons, List.mem_cons, List.mem_append, not_or, List.nodup_append]
      exact ⟨⟨hvw, hvs, hvQ⟩, ⟨hws, hwQ⟩, hsnodup, hQnodup, fun a ha b hb => hsQP a ha b (Or.inl hb)⟩
    ne_zero := fun a ha => husable.ne_zero a (by simp at ha ⊢; tauto)
    aligned := fun a ha => husable.aligned a (by simp at ha ⊢; tauto) }
  have hframe : ∀ a, a ≠ w → a ∉ s.toList → a ∉ Path.elems Q → a ∉ Path.elems P → t₂.node a = t.node a :=
    fun a haw has haQ haP => (hframe₂ a haw has haQ).trans (hframe₁ a haP)
  have hv₂ := (hframe v hvw hvs hvQ hvP).trans hv
  have hl₂ : Repr t₂.node v l := by
    apply hrl.congr
    intro a ha
    have hout := fun b hb => hlsQP a ha b hb
    exact hframe a (ne_of_mem_of_not_mem ha hwl) (fun h => hout a (Or.inl h) rfl)
      (fun h => hout a (Or.inr (Or.inl h)) rfl) fun h => hout a (Or.inr (Or.inr h)) rfl
  obtain ⟨t₃, ht₃, hr₃, hroot₃, hframe₃⟩ := rbTakeOver_spec hv₂ hw₂ hl₂ hr₂ hvw hwl
    (fun h => ((hplug w).mp h).elim hws hwQ) hvl
    (fun a hal ha => ((hplug a).mp ha).elim (fun h => hlsQP a hal a (Or.inl h) rfl)
      fun h => hlsQP a hal a (Or.inr (Or.inl h)) rfl)
    hlnodup (fun a ha => husable.ne_zero a (by simp [ha])) (husable.aligned v List.mem_cons_self) hl
  have haround₃ : ReprPath t₃.node w t₃.root P := by
    rw [hroot₃, hroot₂]
    apply haround₁.congr
    intro a ha
    rw [hframe₃ a (ne_of_mem_of_not_mem ha hwP) fun h => hlsQP a h a (Or.inr (Or.inr ha)) rfl]
    exact hframe₂ a (ne_of_mem_of_not_mem ha hwP) (fun h => hsQP a h a (Or.inr ha) rfl)
      fun h => hQP a h a ha rfl
  have hparent : parentFrom w Q = parentOf (Q ++ ⟨.right, c, w, l⟩ :: P) := by
    cases Q <;> rfl
  refine ⟨t₃, ?_, focus_plug.mp (focus_branch (d := .right).mp ⟨hr₃, haround₃, ?_, ?_⟩)⟩
  · obtain ⟨hw, -, -⟩ := repr_branch.mp (repr_plug.mp hr₁).1
    have hcolor : (RbNode.mk' (parentFrom v Q) cw .left (rootOf .leaf) (rootOf s)).color = colorBit cw := by
      apply RbNode.color_mk'
      cases Q with
      | nil => exact husable.aligned v List.mem_cons_self
      | cons f Q => exact husable.aligned f.elem (by simp [Path.elems])
    have hvr : (RbNode.mk' (parentOf P) c .left (rootOf l) (rootOf (plug (.branch .left cw .leaf w s) Q))).rbRight =
        rootOf (plug (.branch .left cw .leaf w s) Q) := rfl
    simp only [rbUnlinkInner, hv, Option.bind_eq_bind, Option.bind_some, hvr, hdown, RbNode.parent_mk' hal, ht₁, hw,
      ht₂, ht₃, hcolor, hparent]
    rfl
  · rw [plug_append]
    rfl
  · intro a ha
    rw [plug_append, (toList_plug_perm ..).mem_iff, List.mem_append, hplug, Path.elems, List.mem_cons,
      List.mem_append] at ha
    simp only [not_or] at ha
    obtain ⟨⟨has, haQ⟩, haw, hal, haP⟩ := ha
    rw [hframe₃ a haw hal, hframe a haw has haQ haP]

end SimpDserver.NetHashmap
