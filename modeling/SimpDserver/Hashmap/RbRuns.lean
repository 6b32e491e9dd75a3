import SimpDserver.Hashmap.RbSequence

/-!
# Runs of the tree's operations

Linking with repair, erasing and replacing, in any order, as a caller that keeps to the header uses
them: a node is linked where a child pointer is null, and only a node of the tree is erased or replaced.
On the sequence each of them puts something in the place of one node.
-/

namespace SimpDserver.NetHashmap

open RedBlack

/-- A node of its own for the tree to take in. -/
structure Spare (t : Rb) (A : List Addr) (node : Addr) : Prop where
  unused : node ∉ A
  ne_zero : node ≠ 0
  aligned : Aligned node
  alloc : (t.node node).isSome

/-- `bs` in the place of `a`. -/
def substitute (a : Addr) (bs A : List Addr) : List Addr :=
  A.flatMap fun b => if b = a then bs else [b]

variable {A : List Addr} {t : Rb}

theorem substitute_of_notMem {a : Addr} {bs : List Addr} (h : a ∉ A) : substitute a bs A = A := by
  induction A with
  | nil => rfl
  | cons b A ih =>
      rw [List.mem_cons, not_or] at h
      rw [substitute, List.flatMap_cons, if_neg (Ne.symm h.1)]
      exact congrArg (b :: ·) (ih h.2)

theorem substitute_append_cons {a : Addr} {bs xs ys : List Addr} (h : (xs ++ a :: ys).Nodup) :
    substitute a bs (xs ++ a :: ys) = xs ++ (bs ++ ys) := by
  obtain ⟨-, hys, hdisjoint⟩ := List.nodup_append.mp h
  have hxs : a ∉ xs := fun ha => hdisjoint a ha a List.mem_cons_self rfl
  rw [substitute, List.flatMap_append, List.flatMap_cons, if_pos rfl]
  have hxs' : substitute a bs xs = xs := substitute_of_notMem hxs
  have hys' : substitute a bs ys = ys := substitute_of_notMem (List.nodup_cons.mp hys).1
  rw [substitute] at hxs' hys'
  rw [hxs', hys']

theorem erase_eq_substitute {a : Addr} (h : A.Nodup) (ha : a ∈ A) : A.erase a = substitute a [] A := by
  obtain ⟨xs, ys, rfl⟩ := List.append_of_mem ha
  rw [erase_append_cons h, substitute_append_cons h, List.nil_append]

/-! ### The operations -/

inductive RbOp where
  /-- `rb_link_node` and `rb_insert_color` -/
  | link (node parent : Addr) (rbLink : Link)
  /-- `rb_erase` -/
  | erase (node : Addr)
  /-- `rb_replace_node` -/
  | replace (victim new : Addr)

namespace RbOp

def run (fuel : Nat) (t : Rb) : RbOp → Option Rb
  | link node parent rbLink => do
      let t ← rbLinkNode t node parent rbLink
      rbInsertColor fuel t node
  | erase node => rbErase fuel t node
  | replace victim new => rbReplaceNode t victim new

def runAll (fuel : Nat) (t : Rb) (ops : List RbOp) : Option Rb :=
  ops.foldlM (run fuel) t

/-- What a caller sees to. -/
def Legal (t : Rb) (A : List Addr) : RbOp → Prop
  | link node parent .root => Spare t A node ∧ parent = 0 ∧ t.root = 0
  | link node parent (.child a d) => Spare t A node ∧ a = parent ∧ a ∈ A ∧ (Link.child a d).load t = some 0
  | erase node => node ∈ A
  | replace victim new => victim ∈ A ∧ Spare t A new

/-- What becomes of the sequence. -/
def apply (A : List Addr) : RbOp → List Addr
  | link node _ .root => [node]
  | link node _ (.child a .left) => substitute a [node, a] A
  | link node _ (.child a .right) => substitute a [a, node] A
  | erase node => substitute node [] A
  | replace victim new => substitute victim [new] A

/-- The node an operation takes in. -/
def taken : RbOp → List Addr
  | link node _ _ => [node]
  | erase _ => []
  | replace _ new => [new]

/-- Every operation is legal when its turn comes. -/
def LegalRun (fuel : Nat) : Rb → List Addr → List RbOp → Prop
  | _, _, [] => True
  | t, A, op :: ops => op.Legal t A ∧ (op.run fuel t).elim True fun t' => LegalRun fuel t' (op.apply A) ops

end RbOp

instance (a : Addr) : Decidable (Aligned a) := inferInstanceAs (Decidable (a &&& 3#64 = 0#64))

instance (t : Rb) (A : List Addr) (node : Addr) : Decidable (Spare t A node) :=
  decidable_of_iff (node ∉ A ∧ node ≠ 0 ∧ Aligned node ∧ (t.node node).isSome)
    ⟨fun h => ⟨h.1, h.2.1, h.2.2.1, h.2.2.2⟩, fun h => ⟨h.unused, h.ne_zero, h.aligned, h.alloc⟩⟩

instance (t : Rb) (A : List Addr) : (op : RbOp) → Decidable (op.Legal t A)
  | .link node parent .root => inferInstanceAs (Decidable (Spare t A node ∧ parent = 0 ∧ t.root = 0))
  | .link node parent (.child a d) =>
      inferInstanceAs (Decidable (Spare t A node ∧ a = parent ∧ a ∈ A ∧ (Link.child a d).load t = some 0))
  | .erase node => inferInstanceAs (Decidable (node ∈ A))
  | .replace victim new => inferInstanceAs (Decidable (victim ∈ A ∧ Spare t A new))

instance (fuel : Nat) : (ops : List RbOp) → (t : Rb) → (A : List Addr) → Decidable (RbOp.LegalRun fuel t A ops)
  | [], _, _ => isTrue trivial
  | op :: ops, t, A =>
      have _rest : Decidable ((op.run fuel t).elim True fun t' => RbOp.LegalRun fuel t' (op.apply A) ops) :=
        match op.run fuel t with
        | none => isTrue trivial
        | some t' => instDecidableLegalRun fuel ops t' (op.apply A)
      inferInstanceAs (Decidable (op.Legal t A ∧ _))

/-! ### One operation -/

variable {m₀ : Addr → Option RbNode} {P : Path Addr}

/-- Linking a node in at a null pointer and repairing the tree. -/
theorem Focus.link_repair {node : Addr} {fuel : Nat} (hA : Usable A) (h : Focus A m₀ t .leaf P)
    (hP : Hole P .black 0) (hnode : Spare t A node) (hfuel : A.length < fuel) :
    ∃ t', (RbOp.link node (parentOf P) (linkOf P)).run fuel t = some t' ∧
      IsRbTree t' (plug (.node .red .leaf node .leaf) P).toList ∧
      ∀ b, b ∉ (plug (.node .red .leaf node .leaf) P).toList → t'.node b = m₀ b := by
  obtain ⟨t₁, ht₁, h₁⟩ := h.rbLinkNode_spec hA hnode.unused hnode.alloc
  have hperm : (plug (.node .red .leaf node .leaf) P).toList.Perm (node :: A) := by
    rw [← h.elems]
    exact (toList_plug_perm ..).trans ((toList_plug_perm ..).symm.cons node)
  have husable := (hA.cons hnode.unused hnode.ne_zero hnode.aligned).perm hperm.symm
  have hlength := h.length_le
  have hleaf : Balanced (.node .red .leaf node .leaf : RBTree Addr) .red 0 := .red node .leaf .leaf
  obtain ⟨t₂, ht₂, h₂⟩ := h₁.rbInsertColor_spec husable hP hleaf (by omega : P.length < fuel)
  obtain ⟨m, hm⟩ := hP.fixup hleaf
  refine ⟨t₂, ?_, h₂.isRbTree husable hm, h₂.outside⟩
  rw [RbOp.run, ht₁]
  exact ht₂

theorem IsRbTree.link_root_spec (h : IsRbTree t A) {node : Addr} {fuel : Nat} (hnode : Spare t A node)
    (hroot : t.root = 0) (hfuel : A.length < fuel) :
    ∃ t', (RbOp.link node 0 .root).run fuel t = some t' ∧ IsRbTree t' [node] ∧
      ∀ b, b ∉ [node] → t'.node b = t.node b := by
  obtain ⟨T, n, hT, -⟩ := h.tree
  cases T with
  | leaf => exact hT.link_repair h.usable (.root 0) hnode hfuel
  | node c l x r =>
      have hx : x ≠ 0 := Focus.branch_ne_zero (d := .left) h.usable hT
      exact absurd (hT.around.symm.trans hroot) hx

theorem IsRbTree.link_child_spec (h : IsRbTree t A) {node a : Addr} {d : Side} {fuel : Nat} (hnode : Spare t A node)
    (ha : a ∈ A) (hnull : (Link.child a d).load t = some 0) (hfuel : A.length < fuel) :
    ∃ t', (RbOp.link node a (.child a d)).run fuel t = some t' ∧
      IsRbTree t' ((RbOp.link node a (.child a d)).apply A) ∧
      ∀ b, b ∉ (RbOp.link node a (.child a d)).apply A → t'.node b = t.node b := by
  obtain ⟨c, near, far, P, n, hfocus, hn⟩ := h.focus ha d
  have hnear : near = .leaf := by
    rw [Link.load, hfocus.node_branch, Option.map_some, RbNode.child_mk', Option.some.injEq] at hnull
    cases near with
    | leaf => rfl
    | node c' l x r => exact absurd hnull (Focus.branch_ne_zero (d := .left) h.usable (focus_branch.mp hfocus))
  subst hnear
  obtain ⟨c', k, hleaf, hP⟩ := Balanced.of_plug (t := .leaf) (p := ⟨d, c, a, far⟩ :: P) hn
  cases hleaf
  have hlist : (plug (.node .red .leaf node .leaf) (⟨d, c, a, far⟩ :: P)).toList =
      (RbOp.link node a (.child a d)).apply A := by
    have hnodup := h.usable.nodup
    rw [← hfocus.elems] at hnodup ⊢
    rw [toList_plug, toList_plug] at *
    cases d with
    | left =>
        have hsplit : Path.before P ++ ((RBTree.branch .left c .leaf a far).toList ++ Path.after P) =
            Path.before P ++ a :: (far.toList ++ Path.after P) := by simp [RBTree.branch, RBTree.toList]
        rw [RbOp.apply, hsplit, substitute_append_cons (hsplit ▸ hnodup)]
        simp [RBTree.toList, Path.before, Path.after]
    | right =>
        have hsplit : Path.before P ++ ((RBTree.branch .right c .leaf a far).toList ++ Path.after P) =
            (Path.before P ++ far.toList) ++ a :: Path.after P := by simp [RBTree.branch, RBTree.toList]
        rw [RbOp.apply, hsplit, substitute_append_cons (hsplit ▸ hnodup)]
        simp [RBTree.toList, Path.before, Path.after]
  rw [← hlist]
  exact (focus_branch.mp hfocus).link_repair h.usable hP hnode hfuel

/-- The new node gets the pointers of the old one, and the three nodes around it point to it. -/
theorem Focus.rbReplaceNode_spec (hA : Usable A) {c : Color} {l r : RBTree Addr} {victim new : Addr}
    (h : Focus A m₀ t (.node c l victim r) P) (hnew : Spare t A new) :
    ∃ t', rbReplaceNode t victim new = some t' ∧
      Focus (plug (.node c l new r) P).toList t.node t' (.node c l new r) P := by
  have hnodup : ((RBTree.branch .left c l victim r).toList ++ Path.elems P).Nodup := h.nodup hA
  rw [((toList_branch_perm .left c l victim r).append_right _).nodup_iff] at hnodup
  simp only [List.cons_append, List.append_assoc, List.nodup_cons, List.mem_append, not_or,
    List.nodup_append] at hnodup
  obtain ⟨⟨hvl, hvr, hvP⟩, hl, ⟨hr, hP, hrP⟩, hlrP⟩ := hnodup
  have hmem : ∀ a, a = victim ∨ a ∈ l.toList ∨ a ∈ r.toList ∨ a ∈ Path.elems P → a ∈ A := by
    intro a ha
    rw [h.mem]
    change a ∈ (RBTree.branch .left c l victim r).toList ∨ _
    rw [(toList_branch_perm ..).mem_iff, List.mem_cons, List.mem_append]
    tauto
  have hout : ∀ a ∈ A, a ≠ new := fun a ha => ne_of_mem_of_not_mem ha hnew.unused
  obtain ⟨hv, hrl, hrr⟩ := h.here
  have hvA := hmem victim (Or.inl rfl)
  -- the pointer to the old node leads to the new one
  obtain ⟨t₁, ht₁, haround₁, hframe₁⟩ := store_spec new h.around hP
  rw [← relink_eq_store .left new h.around (fun a ha => hA.ne_zero a (hmem a (by tauto))) (hA.ne_zero _ hvA) hvP,
    rootOf_node] at ht₁
  have hv₁ := (hframe₁ victim hvP).trans hv
  have hrl₁ : Repr t₁.node victim l := hrl.congr fun a ha => hframe₁ a fun haP => hlrP a ha a (Or.inr haP) rfl
  have hrr₁ : Repr t₁.node victim r := hrr.congr fun a ha => hframe₁ a fun haP => hrP a ha a haP rfl
  -- the children get the new parent
  obtain ⟨t₂, ht₂, hroot₂, hrl₂, hframe₂⟩ := reparent_spec new hrl₁ (hA.aligned victim hvA) hl
    fun a ha => hA.ne_zero a (hmem a (by tauto))
  have hv₂ := (hframe₂ victim hvl).trans hv₁
  have hrr₂ : Repr t₂.node victim r := hrr₁.congr fun a ha => hframe₂ a fun hal => hlrP a hal a (Or.inl ha) rfl
  obtain ⟨t₃, ht₃, hroot₃, hrr₃, hframe₃⟩ := reparent_spec new hrr₂ (hA.aligned victim hvA) hr
    fun a ha => hA.ne_zero a (hmem a (by tauto))
  have hv₃ := (hframe₃ victim hvr).trans hv₂
  have hrl₃ : Repr t₃.node new l := hrl₂.congr fun a ha => hframe₃ a fun har => hlrP a ha a (Or.inl har) rfl
  have hframe : ∀ a, a ∉ l.toList → a ∉ r.toList → a ∉ Path.elems P → t₃.node a = t.node a :=
    fun a hal har haP => (hframe₃ a har).trans ((hframe₂ a hal).trans (hframe₁ a haP))
  have hnewl : new ∉ l.toList := fun ha => hout new (hmem new (by tauto)) rfl
  have hnewr : new ∉ r.toList := fun ha => hout new (hmem new (by tauto)) rfl
  have hnewP : new ∉ Path.elems P := fun ha => hout new (hmem new (by tauto)) rfl
  obtain ⟨n, hn⟩ := Option.isSome_iff_exists.mp hnew.alloc
  have hn₃ := (hframe new hnewl hnewr hnewP).trans hn
  let v : RbNode := .mk' (parentOf P) c .left (rootOf l) (rootOf r)
  let t₄ : Rb := { t₃ with node := Function.update t₃.node new (some v) }
  have ht₄ : t₃.update new (fun _ => v) = some t₄ := by
    rw [Rb.update, hn₃]
    rfl
  refine ⟨t₄, ?_, ⟨⟨Function.update_self .., hrl₃.update hnewl, hrr₃.update hnewr⟩, ?_, rfl, ?_⟩⟩
  · change t₁.setParentAt v.rbLeft new = some t₂ at ht₂
    change t₂.setParentAt v.rbRight new = some t₃ at ht₃
    have hparent : v.parent = parentOf P := RbNode.parent_mk' (h.aligned_parentOf hA) ..
    simp only [rbReplaceNode, hv, Option.bind_eq_bind, Option.bind_some]
    change (relink .left t v.parent victim new).bind _ = _
    rw [hparent, ht₁, Option.bind_some, hv₁, Option.bind_some, ht₂, Option.bind_some, hv₂, Option.bind_some, ht₃,
      Option.bind_some, hv₃]
    exact ht₄
  · have haround₃ : ReprPath t₃.node new t₃.root P := by
      rw [hroot₃, hroot₂]
      apply haround₁.congr
      intro a ha
      rw [hframe₃ a fun har => hrP a har a ha rfl, hframe₂ a fun hal => hlrP a hal a (Or.inr ha) rfl]
    exact haround₃.update hnewP
  · intro a ha
    rw [(toList_plug_perm ..).mem_iff, List.mem_append] at ha
    change ¬(a ∈ (RBTree.branch .left c l new r).toList ∨ _) at ha
    rw [(toList_branch_perm ..).mem_iff, List.mem_cons, List.mem_append] at ha
    simp only [not_or] at ha
    exact (Function.update_of_ne ha.1.1 ..).trans (hframe a ha.1.2.1 ha.1.2.2 ha.2)

theorem IsRbTree.replace_spec (h : IsRbTree t A) {victim new : Addr} (hv : victim ∈ A) (hnew : Spare t A new) :
    ∃ t', rbReplaceNode t victim new = some t' ∧ IsRbTree t' (substitute victim [new] A) ∧
      ∀ b, b ∉ substitute victim [new] A → t'.node b = t.node b := by
  obtain ⟨c, l, r, P, n, hfocus, hn⟩ := h.focus hv .left
  obtain ⟨t', ht', h'⟩ := hfocus.rbReplaceNode_spec h.usable hnew
  have hbefore : A = (Path.before P ++ l.toList) ++ victim :: (r.toList ++ Path.after P) := by
    rw [← hfocus.elems, toList_plug]
    simp [RBTree.branch, RBTree.toList]
  have hlist : substitute victim [new] A = (plug (.node c l new r) P).toList := by
    have hnodup := h.usable.nodup
    rw [hbefore] at hnodup ⊢
    rw [substitute_append_cons hnodup, toList_plug]
    simp [RBTree.toList]
  have hperm : (plug (.node c l new r) P).toList.Perm (new :: A.erase victim) := by
    have hnodup := h.usable.nodup
    rw [toList_plug]
    rw [hbefore] at hnodup ⊢
    rw [erase_append_cons hnodup, RBTree.toList]
    simp only [List.append_assoc, List.cons_append]
    rw [← List.append_assoc, ← List.append_assoc]
    exact List.perm_middle
  have husable : Usable (plug (.node c l new r) P).toList :=
    ((h.usable.sublist List.erase_sublist).cons (fun hmem => hnew.unused (List.mem_of_mem_erase hmem)) hnew.ne_zero
      hnew.aligned).perm hperm.symm
  have hn' : Balanced (plug r ([] ++ ⟨.right, c, victim, l⟩ :: P)) .black n := hn
  obtain ⟨m, hm⟩ := hn'.replace new
  rw [hlist]
  exact ⟨t', ht', h'.toRoot.isRbTree husable hm, h'.outside⟩

/-! ### Runs -/

/-- One legal operation returns, does to the sequence what it should, and writes to no node outside. -/
theorem IsRbTree.op_spec {op : RbOp} {fuel : Nat} (h : IsRbTree t A) (hop : op.Legal t A) (hfuel : A.length < fuel) :
    ∃ t', op.run fuel t = some t' ∧ IsRbTree t' (op.apply A) ∧ ∀ b, b ∉ op.apply A → t'.node b = t.node b := by
  cases op with
  | link node parent rbLink =>
      cases rbLink with
      | root =>
          obtain ⟨hnode, rfl, hroot⟩ := hop
          exact h.link_root_spec hnode hroot hfuel
      | child a d =>
          obtain ⟨hnode, rfl, ha, hnull⟩ := hop
          exact h.link_child_spec hnode ha hnull hfuel
  | erase node =>
      obtain ⟨t', ht', h', hframe⟩ := h.rbErase_spec hop hfuel.le
      rw [erase_eq_substitute h.usable.nodup hop] at h' hframe
      exact ⟨t', ht', h', hframe⟩
  | replace victim new =>
      obtain ⟨hv, hnew⟩ := hop
      exact h.replace_spec hv hnew

theorem mem_substitute {a b : Addr} {bs : List Addr} (h : b ∈ substitute a bs A) : b ∈ A ∨ b ∈ bs := by
  rw [substitute, List.mem_flatMap] at h
  obtain ⟨x, hx, hb⟩ := h
  split at hb
  · exact Or.inr hb
  · exact Or.inl (List.mem_singleton.mp hb ▸ hx)

theorem length_substitute_le {a : Addr} {bs : List Addr} (h : A.Nodup) :
    (substitute a bs A).length ≤ A.length + (bs.length - 1) := by
  by_cases ha : a ∈ A
  · obtain ⟨xs, ys, rfl⟩ := List.append_of_mem ha
    rw [substitute_append_cons h]
    simp only [List.length_append, List.length_cons]
    omega
  · rw [substitute_of_notMem ha]
    exact Nat.le_add_right ..

theorem RbOp.mem_apply {op : RbOp} {b : Addr} (hop : op.Legal t A) (h : b ∈ op.apply A) : b ∈ A ∨ b ∈ op.taken := by
  cases op with
  | link node parent rbLink =>
      cases rbLink with
      | root => exact Or.inr h
      | child a d =>
          have ha : a ∈ A := hop.2.2.1
          have hsub : b ∈ A ∨ b = a ∨ b = node := by
            cases d with
            | left => simpa [or_comm] using mem_substitute h
            | right => simpa using mem_substitute h
          obtain hb | rfl | rfl := hsub
          · exact Or.inl hb
          · exact Or.inl ha
          · exact Or.inr List.mem_cons_self
  | erase node => exact mem_substitute h
  | replace victim new => exact mem_substitute h

theorem RbOp.length_apply_le (op : RbOp) (h : A.Nodup) : (op.apply A).length ≤ A.length + 1 := by
  cases op with
  | link node parent rbLink =>
      cases rbLink with
      | root => exact Nat.le_add_left ..
      | child a d =>
          cases d with
          | left => exact length_substitute_le h
          | right => exact length_substitute_le h
  | erase node => exact (length_substitute_le h).trans (Nat.le_succ _)
  | replace victim new => exact (length_substitute_le h).trans (Nat.le_succ _)

/-- After every run of legal operations memory holds a red-black tree, whose sequence is what the
operations make of a sequence, and no node that never was in the tree is written to. -/
theorem rb_runs {ops : List RbOp} {fuel : Nat} (h : IsRbTree t A) (hops : RbOp.LegalRun fuel t A ops)
    (hfuel : A.length + ops.length ≤ fuel) :
    ∃ t', RbOp.runAll fuel t ops = some t' ∧ IsRbTree t' (ops.foldl RbOp.apply A) ∧
      ∀ b, b ∉ A → b ∉ ops.flatMap RbOp.taken → t'.node b = t.node b := by
  induction ops generalizing t A with
  | nil => exact ⟨t, rfl, h, fun _ _ _ => rfl⟩
  | cons op ops ih =>
      obtain ⟨hop, hrest⟩ := hops
      rw [List.length_cons] at hfuel
      obtain ⟨t₁, ht₁, h₁, hframe₁⟩ := h.op_spec hop (by omega : A.length < fuel)
      have hlength := op.length_apply_le h.usable.nodup
      rw [ht₁] at hrest
      obtain ⟨t', ht', h', hframe'⟩ := ih h₁ hrest (by omega)
      refine ⟨t', ?_, h', ?_⟩
      · rw [RbOp.runAll, List.foldlM_cons, ht₁]
        exact ht'
      · intro b hb htaken
        rw [List.flatMap_cons, List.mem_append, not_or] at htaken
        have hb₁ : b ∉ op.apply A := fun hmem => (RbOp.mem_apply hop hmem).elim hb htaken.1
        rw [hframe' b hb₁ htaken.2, hframe₁ b hb₁]

theorem isRbTree_nil (h : t.root = 0) : IsRbTree t [] where
  usable := ⟨List.nodup_nil, by simp, by simp⟩
  tree := ⟨.leaf, 0, ⟨trivial, h, rfl, fun _ _ => rfl⟩, .leaf⟩

/-- Three nodes are linked in ascending order, a fourth takes the place of the one that is the root by
then, and the root is erased. -/
theorem rb_runs_three :
    let t : Rb := ⟨fun a => if a ∈ [16, 32, 48, 64] then some ⟨0, 0, 0⟩ else none, 0⟩
    let ops : List RbOp := [.link 16 0 .root, .link 32 16 (.child 16 .right), .link 48 32 (.child 32 .right),
      .replace 32 64, .erase 64]
    ∃ t', RbOp.runAll 5 t ops = some t' ∧ IsRbTree t' [16, 48] ∧
      ∀ b, b ∉ [] → b ∉ ops.flatMap RbOp.taken → t'.node b = t.node b := by
  intro t ops
  have hlegal : RbOp.LegalRun 5 t [] ops := by decide +kernel
  have hnil : IsRbTree t [] := isRbTree_nil rfl
  exact rb_runs hnil hlegal (by decide)

/-- `rb_first`, `rb_last`, `rb_next` and `rb_prev` go through the sequence. -/
theorem rb_walk {fuel : Nat} (h : IsRbTree t A) (hfuel : A.length ≤ fuel) :
    rbFirst fuel t = some (A.head?.getD 0) ∧ rbLast fuel t = some (A.getLast?.getD 0) ∧
      ∀ xs a ys, A = xs ++ a :: ys →
        rbNext fuel t a = some (ys.head?.getD 0) ∧ rbPrev fuel t a = some (xs.getLast?.getD 0) := by
  refine ⟨h.rbEdge_eq .left hfuel, ?_, ?_⟩
  · rw [← List.head?_reverse]
    exact h.rbEdge_eq .right hfuel
  · intro xs a ys hsplit
    have hback : Side.left.along A = ys.reverse ++ a :: xs.reverse := by simp [Side.along, hsplit]
    refine ⟨h.rbStep_eq .right hsplit hfuel, ?_⟩
    rw [← List.head?_reverse]
    exact h.rbStep_eq .left hback hfuel

/-- A black root with a red left child. -/
theorem rb_walk_pair :
    let t : Rb := ⟨fun a => if a = 32 then some ⟨1, 0, 16⟩ else if a = 16 then some ⟨32, 0, 0⟩ else none, 32⟩
    rbFirst 2 t = some 16 ∧ rbLast 2 t = some 32 ∧ ∀ xs a ys, [16, 32] = xs ++ a :: ys →
      rbNext 2 t a = some (ys.head?.getD 0) ∧ rbPrev 2 t a = some (xs.getLast?.getD 0) := by
  intro t
  have h : IsRbTree t [16, 32] := {
    usable := ⟨by decide, by simp, by simp [Aligned]⟩
    tree := ⟨.node .black (.node .red .leaf 16 .leaf) 32 .leaf, 1,
      ⟨⟨rfl, ⟨rfl, trivial, trivial⟩, trivial⟩, rfl, rfl, fun _ _ => rfl⟩,
      .black 32 (.red 16 .leaf .leaf) .leaf⟩ }
  exact rb_walk h (by decide)

end SimpDserver.NetHashmap
