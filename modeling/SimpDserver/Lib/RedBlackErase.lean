import SimpDserver.Lib.RedBlack

/-!
# Taking an element out of a red-black tree

Deletion closes the gap with a subtree that may have one black level less than its place wants. On the
way up the gap moves to the parent as long as the sibling has no red child to spare, and is closed by
rotations as soon as it has one. The sides are mirror images throughout: `near` is the child of the
sibling next to the gap, `far` the other one.
-/

namespace RedBlack

open RedBlack.RBTree

variable {α : Type*}

/-- The black levels of a subtree whose root has this colour and whose children have `n`. -/
def Color.over (c : Color) (n : Nat) : Nat :=
  match c with
  | .red => n
  | .black => n + 1

theorem RBTree.isRed_branch (d : Side) (c : Color) (t : RBTree α) (x : α) (s : RBTree α) :
    (branch d c t x s).isRed = true ↔ c = .red := by
  cases d <;> cases c <;> simp [branch, isRed]

@[simp] theorem RBTree.blacken_branch (d : Side) (c : Color) (t : RBTree α) (x : α) (s : RBTree α) :
    (branch d c t x s).blacken = branch d .black t x s := by
  cases d <;> rfl

/-- A tree is a leaf or has its root between a child on side `d` and another one. -/
theorem RBTree.leaf_or_branch (d : Side) (t : RBTree α) :
    t = leaf ∨ ∃ c near x far, t = branch d c near x far := by
  cases t with
  | leaf => exact Or.inl rfl
  | node c l x r =>
      obtain ⟨near, far, h⟩ := node_eq_branch d c l x r
      exact Or.inr ⟨c, near, x, far, h⟩

/-! ### Balance from the outside in -/

theorem Balanced.branch {t s : RBTree α} {c c₁ c₂ : Color} {n : Nat} (d : Side) (x : α)
    (ht : Balanced t c₁ n) (hs : Balanced s c₂ n) (h₁ : c = .red → c₁ = .black)
    (h₂ : c = .red → c₂ = .black) : Balanced (branch d c t x s) c (c.over n) := by
  cases c with
  | red =>
      obtain rfl := h₁ rfl
      obtain rfl := h₂ rfl
      exact ht.branch_red d x hs
  | black => exact ht.branch_black d x hs

theorem Balanced.branch_inv {t s : RBTree α} {c c' : Color} {m : Nat} {d : Side} {x : α}
    (h : Balanced (RBTree.branch d c t x s) c' m) :
    c' = c ∧ ∃ c₁ c₂ n, m = c.over n ∧ Balanced t c₁ n ∧ Balanced s c₂ n ∧
      (c = .red → c₁ = .black) ∧ (c = .red → c₂ = .black) := by
  cases d with
  | left =>
      cases h with
      | red _ hl hr => exact ⟨rfl, _, _, _, rfl, hl, hr, fun _ => rfl, fun _ => rfl⟩
      | black _ hl hr => exact ⟨rfl, _, _, _, rfl, hl, hr, nofun, nofun⟩
  | right =>
      cases h with
      | red _ hl hr => exact ⟨rfl, _, _, _, rfl, hr, hl, fun _ => rfl, fun _ => rfl⟩
      | black _ hl hr => exact ⟨rfl, _, _, _, rfl, hr, hl, nofun, nofun⟩

theorem Balanced.black_of_not_isRed {t : RBTree α} {c : Color} {n : Nat} (h : Balanced t c n)
    (hred : t.isRed = false) : c = .black := by
  cases c with
  | red => simp [h.isRed_iff.mpr rfl] at hred
  | black => rfl

theorem Hole.black {p : Path α} {c : Color} {n : Nat} (h : Hole p c n) : Hole p .black n := by
  cases c with
  | black => exact h
  | red =>
      cases h with
      | underBlack d x _ hs hp => exact .underBlack d x .black hs hp

theorem Hole.cons {d : Side} {x : α} {s : RBTree α} {p : Path α} {c c' cs : Color} {n : Nat}
    (hs : Balanced s cs n) (hp : Hole p c (c.over n)) (h : c = .red → c' = .black)
    (hcs : c = .red → cs = .black) : Hole (⟨d, c, x, s⟩ :: p) c' n := by
  cases c with
  | red =>
      obtain rfl := h rfl
      obtain rfl := hcs rfl
      exact .underRed d x hs hp
  | black => exact .underBlack d x c' hs hp

theorem Hole.cons_inv {d : Side} {x : α} {s : RBTree α} {p : Path α} {c c' : Color} {n : Nat}
    (h : Hole (⟨d, c, x, s⟩ :: p) c' n) :
    ∃ cs, Balanced s cs n ∧ Hole p c (c.over n) ∧ (c = .red → c' = .black) ∧ (c = .red → cs = .black) := by
  cases h with
  | underRed _ _ hs hp => exact ⟨_, hs, hp, fun _ => rfl, fun _ => rfl⟩
  | underBlack _ _ _ hs hp => exact ⟨_, hs, hp, nofun, nofun⟩

/-- Every subtree of a balanced tree is balanced, and the path to it takes any other such in its
place. -/
theorem Balanced.of_plug {t : RBTree α} {p : Path α} {m : Nat} (h : Balanced (plug t p) .black m) :
    ∃ c n, Balanced t c n ∧ Hole p c n := by
  induction p generalizing t with
  | nil => exact ⟨.black, m, h, .root m⟩
  | cons f p ih =>
      obtain ⟨c, n, hbranch, hp⟩ := ih h
      obtain ⟨rfl, c₁, c₂, k, rfl, ht, hs, h₁, h₂⟩ := hbranch.branch_inv
      exact ⟨c₁, k, ht, hp.cons hs h₁ h₂⟩

/-- The elements are nothing to the balance of a path. -/
theorem Hole.replace {p q : Path α} {d : Side} {c c' : Color} {x : α} {s : RBTree α} {n : Nat} (y : α)
    (h : Hole (q ++ ⟨d, c, x, s⟩ :: p) c' n) : Hole (q ++ ⟨d, c, y, s⟩ :: p) c' n := by
  induction q generalizing c' n with
  | nil =>
      obtain ⟨cs, hs, hp, h₁, h₂⟩ := h.cons_inv
      exact hp.cons hs h₁ h₂
  | cons f q ih =>
      obtain ⟨cs, hs, hq, h₁, h₂⟩ := h.cons_inv
      exact (ih hq).cons hs h₁ h₂

theorem Balanced.replace {t : RBTree α} {p q : Path α} {d : Side} {c : Color} {x : α} {s : RBTree α} {n : Nat}
    (y : α) (h : Balanced (plug t (q ++ ⟨d, c, x, s⟩ :: p)) .black n) :
    ∃ m, Balanced (plug t (q ++ ⟨d, c, y, s⟩ :: p)) .black m := by
  obtain ⟨c', k, ht, hp⟩ := h.of_plug
  exact (hp.replace y).plug ht

/-! ### Closing the gap -/

/-- A subtree for a place of `n + 1` black levels: it has one level less, or has a red root whose
blackening makes the level up. -/
inductive Lacking : RBTree α → Nat → Prop
  | black {t : RBTree α} {n : Nat} (h : Balanced t .black n) : Lacking t n
  | red {l r : RBTree α} {x : α} {n : Nat} (h : Balanced (node .black l x r) .black (n + 1)) :
      Lacking (node .red l x r) n

theorem Balanced.lacking {t : RBTree α} {c : Color} {n : Nat} (h : Balanced t c n) : Lacking t n := by
  cases h with
  | leaf => exact .black .leaf
  | red x hl hr => exact .red (.black x hl hr)
  | black x hl hr => exact .black (.black x hl hr)

theorem Lacking.balanced {t : RBTree α} {n : Nat} (h : Lacking t n) (hred : t.isRed = false) :
    Balanced t .black n := by
  cases h with
  | black h => exact h
  | red h => simp [isRed] at hred

theorem Lacking.branch_red {t s : RBTree α} {d : Side} {x : α} {n : Nat}
    (h : Balanced (RBTree.branch d .black t x s) .black (n + 1)) : Lacking (RBTree.branch d .red t x s) n := by
  cases d with
  | left => exact .red h
  | right => exact .red h

/-- A red root takes the missing level, and the whole tree's root needs none. -/
theorem Lacking.close {t : RBTree α} {p : Path α} {n : Nat} (ht : Lacking t n) (hp : Hole p .black (n + 1))
    (h : t.isRed = true ∨ p = []) : ∃ m, Balanced (plug t.blacken p) .black m := by
  cases ht with
  | red hblack => exact hp.plug hblack
  | black hblack =>
      obtain hred | rfl := h
      · exact absurd (hblack.isRed_iff.mp hred) (by simp)
      · exact ⟨n, hblack.blacken_of_black.symm ▸ hblack⟩

section Sibling

variable {t near far : RBTree α} {p : Path α} {d : Side} {c : Color} {x y : α} {n : Nat}

/-- The sibling of a gap is no leaf. -/
theorem Hole.sibling {s : RBTree α} (h : Hole (⟨d, c, x, s⟩ :: p) .black (n + 1)) :
    ∃ cs near y far, s = branch d cs near y far := by
  obtain ⟨cs, hs, -⟩ := h.cons_inv
  refine (s.leaf_or_branch d).resolve_left ?_
  rintro rfl
  cases hs

/-- A red sibling rotates up: the gap comes under a red node with a black sibling. -/
theorem Hole.red_sibling (h : Hole (⟨d, c, x, branch d .red near y far⟩ :: p) .black (n + 1)) :
    c = .black ∧ Hole (⟨d, .red, x, near⟩ :: ⟨d, .black, y, far⟩ :: p) .black (n + 1) ∧ near.isRed = false := by
  obtain ⟨cs, hs, hp, -, hcs⟩ := h.cons_inv
  obtain ⟨rfl, c₁, c₂, k, hk, hnear, hfar, h₁, h₂⟩ := hs.branch_inv
  obtain rfl := h₁ rfl
  obtain rfl := h₂ rfl
  simp only [Color.over] at hk
  subst hk
  have hc : c = .black := by
    cases c with
    | red => exact absurd (hcs rfl) (by simp)
    | black => rfl
  subst hc
  refine ⟨rfl, .underRed d x hnear (.underBlack d y .red hfar hp), ?_⟩
  rw [← Bool.not_eq_true, hnear.isRed_iff]
  simp

/-- A black sibling with two black children turns red: the gap is at the parent now. -/
theorem Hole.up (hp : Hole (⟨d, c, x, branch d .black near y far⟩ :: p) .black (n + 1)) (ht : Balanced t .black n)
    (hnear : near.isRed = false) (hfar : far.isRed = false) :
    ∃ k, Lacking (branch d c t x (branch d .red near y far)) k ∧ Hole p .black (k + 1) := by
  obtain ⟨cs, hs, hp, -⟩ := hp.cons_inv
  obtain ⟨rfl, c₁, c₂, k, hk, hn, hf, -⟩ := hs.branch_inv
  obtain rfl := hn.black_of_not_isRed hnear
  obtain rfl := hf.black_of_not_isRed hfar
  simp only [Color.over, Nat.add_right_cancel_iff] at hk
  subst hk
  have hsibling := hn.branch_red d y hf
  cases c with
  | red => exact ⟨n, Lacking.branch_red (ht.branch_black d x hsibling), hp.black⟩
  | black => exact ⟨n + 1, .black (ht.branch_black d x hsibling), hp⟩

/-- A black sibling whose far child is black and whose near one is red: rotated, its far child is red. -/
theorem Hole.near_red {a b : RBTree α} {z : α}
    (h : Hole (⟨d, c, x, branch d .black (branch d .red a z b) y far⟩ :: p) .black (n + 1))
    (hfar : far.isRed = false) :
    Hole (⟨d, c, x, branch d .black a z (branch d .red b y far)⟩ :: p) .black (n + 1) := by
  obtain ⟨cs, hs, hp, h₁, h₂⟩ := h.cons_inv
  obtain ⟨rfl, c₁, c₂, k, hk, hnear, hf, -⟩ := hs.branch_inv
  obtain rfl := hf.black_of_not_isRed hfar
  obtain ⟨rfl, c₃, c₄, k', hk', ha, hb, h₃, h₄⟩ := hnear.branch_inv
  obtain rfl := h₃ rfl
  obtain rfl := h₄ rfl
  simp only [Color.over, Nat.add_right_cancel_iff] at hk hk'
  subst hk hk'
  exact hp.cons (ha.branch_black d z (hb.branch_red d y hf)) h₁ h₂

/-- A black sibling with a red far child gives a level: it takes the parent's place and colour. -/
theorem Hole.far_red (h : Hole (⟨d, c, x, branch d .black near y far⟩ :: p) .black (n + 1))
    (ht : Balanced t .black n) (hfar : far.isRed = true) :
    ∃ m, Balanced (RedBlack.plug (branch d c (branch d .black t x near) y far.blacken) p) .black m := by
  obtain ⟨cs, hs, hp, -⟩ := h.cons_inv
  obtain ⟨rfl, c₁, c₂, k, hk, hnear, hf, -⟩ := hs.branch_inv
  simp only [Color.over, Nat.add_right_cancel_iff] at hk
  subst hk
  obtain rfl := hf.isRed_iff.mp hfar
  cases hf with
  | red z hl hr =>
      have hleft := ht.branch_black d x hnear
      exact hp.plug (hleft.branch d y (.black z hl hr) (fun _ => rfl) (fun _ => rfl))

end Sibling

/-! ### Neighbours in order -/

/-- A sequence in the order in which one meets its elements walking towards side `d`. -/
def Side.along (d : Side) (xs : List α) : List α :=
  match d with
  | .left => xs.reverse
  | .right => xs

def RBTree.toward (d : Side) (t : RBTree α) : List α := d.along t.toList

/-- The elements around a hole that lie on side `d` of it, the nearest first. -/
def Path.beyond (d : Side) (p : Path α) : List α :=
  match d with
  | .left => (Path.before p).reverse
  | .right => Path.after p

@[simp] theorem RBTree.toward_leaf (d : Side) : (leaf : RBTree α).toward d = [] := by
  cases d <;> rfl

@[simp] theorem RBTree.toward_branch (d : Side) (c : Color) (near : RBTree α) (x : α) (far : RBTree α) :
    (branch d c near x far).toward d = far.toward d ++ x :: near.toward d := by
  cases d <;> simp [branch, toward, Side.along, toList]

@[simp] theorem Path.beyond_nil (d : Side) : Path.beyond d ([] : Path α) = [] := by
  cases d <;> rfl

@[simp] theorem Path.beyond_cons (d : Side) (c : Color) (x : α) (s : RBTree α) (p : Path α) :
    Path.beyond d (⟨d, c, x, s⟩ :: p) = Path.beyond d p := by
  cases d <;> simp [Path.beyond, Path.before, Path.after]

@[simp] theorem Path.beyond_cons_other (d : Side) (c : Color) (x : α) (s : RBTree α) (p : Path α) :
    Path.beyond d (⟨d.other, c, x, s⟩ :: p) = x :: (s.toward d ++ Path.beyond d p) := by
  cases d <;> simp [Path.beyond, Path.before, Path.after, Side.other, toward, Side.along]

theorem Path.beyond_eq_nil {d : Side} {p : Path α} (h : ∀ f ∈ p, f.side = d) : Path.beyond d p = [] := by
  induction p with
  | nil => exact Path.beyond_nil d
  | cons f p ih =>
      obtain ⟨hf, hp⟩ := List.forall_mem_cons.mp h
      obtain ⟨e, c, x, s⟩ := f
      obtain rfl : e = d := hf
      rw [Path.beyond_cons]
      exact ih hp

theorem toward_plug (d : Side) (t : RBTree α) (p : Path α) :
    (plug t p).toward d = (Path.beyond d.other p).reverse ++ (t.toward d ++ Path.beyond d p) := by
  cases d <;> simp [toward, Side.along, Path.beyond, toList_plug, Side.other]

/-- An element is met right before what is on side `d` of it. -/
theorem along_plug_branch (d : Side) (c : Color) (near : RBTree α) (x : α) (far : RBTree α) (p : Path α) :
    d.along (plug (branch d c near x far) p).toList =
      ((Path.beyond d.other p).reverse ++ far.toward d) ++ x :: (near.toward d ++ Path.beyond d p) := by
  rw [← toward, toward_plug, toward_branch]
  simp

theorem Path.length_le_elems (p : Path α) : p.length ≤ (Path.elems p).length := by
  induction p with
  | nil => simp
  | cons f p ih =>
      simp only [Path.elems, List.length_cons, List.length_append]
      omega

theorem plug_append (t : RBTree α) (p q : Path α) : plug t (p ++ q) = plug (plug t p) q := by
  induction p generalizing t with
  | nil => rfl
  | cons f p ih => exact ih _

/-- Every element is the root of a subtree. -/
theorem exists_plug_of_mem {t : RBTree α} {x : α} (h : x ∈ t.toList) (d : Side) :
    ∃ c near far p, t = plug (branch d c near x far) p := by
  induction t with
  | leaf => simp [toList] at h
  | node c l y r ihl ihr =>
      rw [toList, List.mem_append, List.mem_cons] at h
      obtain h | rfl | h := h
      · obtain ⟨c', near, far, p, hp⟩ := ihl h
        refine ⟨c', near, far, p ++ [⟨.left, c, y, r⟩], ?_⟩
        rw [plug_append, ← hp]
        rfl
      · obtain ⟨near, far, hbranch⟩ := node_eq_branch d c l x r
        exact ⟨c, near, far, [], hbranch⟩
      · obtain ⟨c', near, far, p, hp⟩ := ihr h
        refine ⟨c', near, far, p ++ [⟨.right, c, y, l⟩], ?_⟩
        rw [plug_append, ← hp]
        rfl

end RedBlack
