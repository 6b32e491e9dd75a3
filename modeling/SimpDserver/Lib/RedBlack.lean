import Mathlib.Tactic

/-!
# Red-black trees with a hole

Bottom-up insertion hangs a red leaf and then climbs, so its natural state is a zipper: the subtree
already repaired and the path from it to the root. `fixup` is that climb. The balance of a path is
what it may be filled with; a key moves neither in a recolouring nor in a rotation, so the sequence
of elements is that of the path around that of the subtree throughout.
-/

namespace RedBlack

inductive Color where
  | red
  | black
  deriving DecidableEq

inductive Side where
  | left
  | right
  deriving DecidableEq

namespace Side

def other : Side → Side
  | left => right
  | right => left

@[simp] theorem other_other (d : Side) : d.other.other = d := by cases d <;> rfl

theorem eq_other_of_ne {d e : Side} (h : d ≠ e) : d = e.other := by
  cases d <;> cases e <;> simp_all [other]

end Side

inductive RBTree (α : Type*) where
  | leaf
  | node (c : Color) (l : RBTree α) (x : α) (r : RBTree α)

/-- What is around a child on one side of a node. -/
structure Frame (α : Type*) where
  side : Side
  color : Color
  elem : α
  sibling : RBTree α

/-- The way from a subtree up to the root. -/
abbrev Path (α : Type*) := List (Frame α)

variable {α : Type*}

namespace RBTree

/-- The node with `near` on side `d` and `far` on the other. -/
def branch (d : Side) (c : Color) (near : RBTree α) (x : α) (far : RBTree α) : RBTree α :=
  match d with
  | .left => node c near x far
  | .right => node c far x near

theorem node_eq_branch (d : Side) (c : Color) (l : RBTree α) (x : α) (r : RBTree α) :
    ∃ near far, node c l x r = branch d c near x far := by
  cases d with
  | left => exact ⟨l, r, rfl⟩
  | right => exact ⟨r, l, rfl⟩

theorem branch_other (d : Side) (c : Color) (near : RBTree α) (x : α) (far : RBTree α) :
    branch d.other c near x far = branch d c far x near := by
  cases d <;> rfl

def toList : RBTree α → List α
  | leaf => []
  | node _ l x r => l.toList ++ x :: r.toList

def blacken : RBTree α → RBTree α
  | leaf => leaf
  | node _ l x r => node .black l x r

def isRed : RBTree α → Bool
  | node .red _ _ _ => true
  | _ => false

def height : RBTree α → Nat
  | leaf => 0
  | node _ l _ r => max l.height r.height + 1

@[simp] theorem toList_blacken (t : RBTree α) : t.blacken.toList = t.toList := by cases t <;> rfl

end RBTree

open RedBlack.RBTree

def plug : RBTree α → Path α → RBTree α
  | t, [] => t
  | t, f :: p => plug (branch f.side f.color t f.elem f.sibling) p

namespace Path

/-- The elements before and after the hole. -/
def before : Path α → List α
  | [] => []
  | ⟨.left, _, _, _⟩ :: p => before p
  | ⟨.right, _, x, s⟩ :: p => before p ++ (s.toList ++ [x])

def after : Path α → List α
  | [] => []
  | ⟨.left, _, x, s⟩ :: p => x :: s.toList ++ after p
  | ⟨.right, _, _, _⟩ :: p => after p

/-- The elements around the hole, from the inside out. -/
def elems : Path α → List α
  | [] => []
  | f :: p => f.elem :: (f.sibling.toList ++ elems p)

end Path

theorem toList_branch_perm (d : Side) (c : Color) (near : RBTree α) (x : α) (far : RBTree α) :
    (branch d c near x far).toList.Perm (x :: (near.toList ++ far.toList)) := by
  cases d with
  | left => exact List.perm_middle
  | right => exact List.perm_middle.trans (List.perm_append_comm.cons x)

theorem toList_plug_perm (t : RBTree α) (p : Path α) :
    (plug t p).toList.Perm (t.toList ++ Path.elems p) := by
  induction p generalizing t with
  | nil => simp [plug, Path.elems]
  | cons f p ih =>
      refine (ih _).trans (((toList_branch_perm ..).append_right _).trans ?_)
      rw [Path.elems, ← List.cons_append, List.append_assoc]
      simpa using List.perm_middle.symm

theorem toList_plug (t : RBTree α) (p : Path α) :
    (plug t p).toList = Path.before p ++ (t.toList ++ Path.after p) := by
  induction p generalizing t with
  | nil => simp [plug, Path.before, Path.after]
  | cons f p ih =>
      obtain ⟨d, c, x, s⟩ := f
      cases d <;> simp [plug, ih, branch, toList, Path.before, Path.after]

theorem toList_plug_congr {t u : RBTree α} (h : t.toList = u.toList) (p : Path α) :
    (plug t p).toList = (plug u p).toList := by
  rw [toList_plug, toList_plug, h]

/-! ### Repairing a red node under a red parent -/

/-- The rotation that ends the climb: `t` under the parent `x` under the grandparent `y`. -/
def restructure (t : RBTree α) (d e : Side) (x : α) (s : RBTree α) (y : α) (u : RBTree α) : RBTree α :=
  if d = e then branch e .black t x (branch e .red s y u)
  else match t, e with
    | leaf, _ => branch e .red (branch d .black leaf x s) y u
    | node _ l z r, .left => node .black (node .red s x l) z (node .red r y u)
    | node _ l z r, .right => node .black (node .red u y l) z (node .red r x s)

/-- The climb from the subtree `t`, and the root coloured black at its end. -/
def fixup : RBTree α → Path α → RBTree α
  | t, [] => t.blacken
  | t, [f] => (plug t [f]).blacken
  | t, f :: g :: p =>
      match f.color with
      | .black => (plug t (f :: g :: p)).blacken
      | .red =>
          if g.sibling.isRed then
            fixup (branch g.side .red (branch f.side .black t f.elem f.sibling) g.elem g.sibling.blacken) p
          else
            (plug (restructure t f.side g.side f.elem f.sibling g.elem g.sibling) p).blacken

theorem toList_restructure (t : RBTree α) (d e : Side) (x : α) (s : RBTree α) (y : α) (u : RBTree α)
    (c c' : Color) :
    (restructure t d e x s y u).toList = (branch e c (branch d c' t x s) y u).toList := by
  cases d <;> cases e <;> cases t <;> simp [restructure, branch, toList]

theorem toList_fixup (t : RBTree α) (p : Path α) : (fixup t p).toList = (plug t p).toList := by
  induction t, p using fixup.induct with
  | case1 => simp [fixup, plug]
  | case2 => simp [fixup]
  | case3 t f g p hc => simp [fixup, hc]
  | case4 t f g p hc hred ih =>
      simp only [fixup, hc, hred, if_true, ih, plug]
      apply toList_plug_congr
      cases f.side <;> cases g.side <;> simp [branch, toList]
  | case5 t f g p hc hred =>
      simp only [fixup, hc, hred, Bool.false_eq_true, if_false, toList_blacken, plug]
      exact toList_plug_congr (toList_restructure ..) p

/-! ### Balance -/

/-- A red-black tree with a root of colour `c` over `n` black levels. -/
inductive Balanced : RBTree α → Color → Nat → Prop
  | leaf : Balanced leaf .black 0
  | red {l r : RBTree α} {n : Nat} (x : α) (hl : Balanced l .black n) (hr : Balanced r .black n) :
      Balanced (node .red l x r) .red n
  | black {l r : RBTree α} {c c' : Color} {n : Nat} (x : α) (hl : Balanced l c n) (hr : Balanced r c' n) :
      Balanced (node .black l x r) .black (n + 1)

/-- A path that a subtree with a root of colour `c` over `n` black levels completes to a balanced
tree with a black root. -/
inductive Hole : Path α → Color → Nat → Prop
  | root (n : Nat) : Hole [] .black n
  | underRed {s : RBTree α} {p : Path α} {n : Nat} (d : Side) (x : α) (hs : Balanced s .black n)
      (hp : Hole p .red n) : Hole (⟨d, .red, x, s⟩ :: p) .black n
  | underBlack {s : RBTree α} {p : Path α} {c' : Color} {n : Nat} (d : Side) (x : α) (c : Color)
      (hs : Balanced s c' n) (hp : Hole p .black (n + 1)) : Hole (⟨d, .black, x, s⟩ :: p) c n

theorem Balanced.branch_red {t u : RBTree α} {n : Nat} (d : Side) (x : α) (ht : Balanced t .black n)
    (hu : Balanced u .black n) : Balanced (branch d .red t x u) .red n := by
  cases d with
  | left => exact .red x ht hu
  | right => exact .red x hu ht

theorem Balanced.branch_black {t u : RBTree α} {c c' : Color} {n : Nat} (d : Side) (x : α)
    (ht : Balanced t c n) (hu : Balanced u c' n) : Balanced (branch d .black t x u) .black (n + 1) := by
  cases d with
  | left => exact .black x ht hu
  | right => exact .black x hu ht

theorem Balanced.blacken_of_black {t : RBTree α} {n : Nat} (h : Balanced t .black n) : t.blacken = t := by
  cases h <;> rfl

theorem Balanced.isRed_iff {t : RBTree α} {c : Color} {n : Nat} (h : Balanced t c n) :
    t.isRed = true ↔ c = .red := by
  cases h <;> simp [isRed]

theorem Hole.plug {t : RBTree α} {p : Path α} {c : Color} {n : Nat} (hp : Hole p c n)
    (ht : Balanced t c n) : ∃ m, Balanced (plug t p) .black m := by
  induction hp generalizing t with
  | root => exact ⟨_, ht⟩
  | underRed d x hs _ ih => exact ih (ht.branch_red d x hs)
  | underBlack d x c hs _ ih => exact ih (ht.branch_black d x hs)

/-- A red subtree under a red parent with a red uncle: the grandparent's colour moves down. -/
theorem Balanced.recolor {t s u : RBTree α} {c : Color} {n : Nat} (d e : Side) (x y : α)
    (ht : Balanced t .red n) (hs : Balanced s .black n) (hu : Balanced u c n) (hred : u.isRed) :
    Balanced (branch e .red (branch d .black t x s) y u.blacken) .red (n + 1) := by
  obtain rfl := hu.isRed_iff.mp hred
  cases hu with
  | red z hl hr => exact (ht.branch_black d x hs).branch_red e y (.black z hl hr)

/-- A red subtree where a black one was due: the rotation makes it a black one of the right height. -/
theorem Balanced.restructure {t s u : RBTree α} {n : Nat} (d e : Side) (x y : α)
    (ht : Balanced t .red n) (hs : Balanced s .black n) (hu : Balanced u .black n) :
    Balanced (restructure t d e x s y u) .black (n + 1) := by
  unfold RedBlack.restructure
  cases ht with
  | red z hl hr =>
      by_cases hde : d = e
      · rw [if_pos hde]
        exact (Balanced.red z hl hr).branch_black e x (hs.branch_red e y hu)
      · rw [if_neg hde]
        cases e with
        | left => exact .black z (.red x hs hl) (.red y hr hu)
        | right => exact .black z (.red y hu hl) (.red x hr hs)

/-- The climb from a red subtree at a place for a black one ends in a balanced tree with a black root. -/
theorem Hole.fixup {t : RBTree α} {p : Path α} {n : Nat} (hp : Hole p .black n)
    (ht : Balanced t .red n) : ∃ m, Balanced (fixup t p) .black m := by
  induction t, p using fixup.induct generalizing n with
  | case1 =>
      cases ht with
      | red x hl hr => exact ⟨_, .black x hl hr⟩
  | case2 t f =>
      cases hp with
      | underRed _ _ _ hp => cases hp
      | underBlack d x c hs hp =>
          obtain ⟨m, hm⟩ := hp.plug (ht.branch_black d x hs)
          refine ⟨m, ?_⟩
          rw [RedBlack.fixup]
          exact hm.blacken_of_black.symm ▸ hm
  | case3 t f g p hc =>
      cases hp with
      | underRed => simp at hc
      | underBlack d x c hs hp =>
          obtain ⟨m, hm⟩ := hp.plug (ht.branch_black d x hs)
          refine ⟨m, ?_⟩
          rw [RedBlack.fixup]
          exact hm.blacken_of_black.symm ▸ hm
  | case4 t f g p hc hred ih =>
      cases hp with
      | underBlack => simp at hc
      | underRed d x hs hp =>
          cases hp with
          | underBlack e y c hu hp =>
              simp only [RedBlack.fixup, hred, if_true]
              exact ih hp (ht.recolor d e x y hs hu hred)
  | case5 t f g p hc hred =>
      cases hp with
      | underBlack => simp at hc
      | underRed d x hs hp =>
          cases hp with
          | @underBlack _ _ c' _ e y c hu hp =>
              have hblack : c' = .black := by
                cases c' with
                | red => exact absurd (hu.isRed_iff.mpr rfl) hred
                | black => rfl
              subst hblack
              obtain ⟨m, hm⟩ := hp.plug (ht.restructure d e x y hs hu)
              refine ⟨m, ?_⟩
              simp only [RedBlack.fixup, hred, Bool.false_eq_true, if_false]
              exact hm.blacken_of_black.symm ▸ hm

theorem Balanced.height_le {t : RBTree α} {c : Color} {n : Nat} (h : Balanced t c n) :
    t.height ≤ 2 * n + (if c = .red then 1 else 0) := by
  induction h with
  | leaf => simp [height]
  | red x _ _ ihl ihr =>
      simp only [height, reduceCtorEq, if_false, if_true] at *
      omega
  | black x _ _ ihl ihr =>
      simp only [height, reduceCtorEq, if_false] at *
      split at ihl <;> split at ihr <;> omega

theorem height_le_length (t : RBTree α) : t.height ≤ t.toList.length := by
  induction t with
  | leaf => simp [height]
  | node c l x r ihl ihr =>
      simp only [height, toList, List.length_append, List.length_cons]
      omega

theorem Balanced.pow_le_size {t : RBTree α} {c : Color} {n : Nat} (h : Balanced t c n) :
    2 ^ n ≤ t.toList.length + 1 := by
  induction h with
  | leaf => simp [toList]
  | red x _ _ ihl ihr =>
      simp only [toList, List.length_append, List.length_cons]
      omega
  | black x _ _ ihl ihr =>
      simp only [toList, List.length_append, List.length_cons, pow_succ]
      omega

/-! ### Descents -/

section Descent

variable (side : α → Option Side)

/-- The elements met on the way down, each deciding the side to go on at, if any. -/
def spine : RBTree α → List α
  | leaf => []
  | node _ l x r =>
      x :: match side x with
        | none => []
        | some .left => spine l
        | some .right => spine r

/-- The element the descent stops at. -/
def find : RBTree α → Option α
  | leaf => none
  | node _ l x r =>
      match side x with
      | none => some x
      | some .left => find l
      | some .right => find r

/-- The place of the missing child the descent runs into, if it does not stop before. -/
def descend : RBTree α → Path α → Option (Path α)
  | leaf, p => some p
  | node c l x r, p =>
      match side x with
      | none => none
      | some .left => descend l (⟨.left, c, x, r⟩ :: p)
      | some .right => descend r (⟨.right, c, x, l⟩ :: p)

variable {side}

theorem length_spine_le (t : RBTree α) : (spine side t).length ≤ t.height := by
  induction t with
  | leaf => simp [spine, height]
  | node c l x r ihl ihr =>
      simp only [spine, height, List.length_cons]
      cases side x with
      | none => simp
      | some d => cases d <;> simp only <;> omega

theorem spine_subset (t : RBTree α) : spine side t ⊆ t.toList := by
  induction t with
  | leaf => simp [spine]
  | node c l x r ihl ihr =>
      simp only [spine, toList]
      cases side x with
      | none => simp
      | some d =>
          cases d <;> simp only [List.cons_subset, List.mem_append, List.mem_cons, true_or, or_true,
            true_and] <;> intro y hy
          · exact List.mem_append_left _ (ihl hy)
          · exact List.mem_append_right _ (List.mem_cons_of_mem _ (ihr hy))

theorem find_mem {t : RBTree α} {x : α} (h : find side t = some x) : x ∈ t.toList ∧ side x = none := by
  induction t with
  | leaf => simp [find] at h
  | node c l y r ihl ihr =>
      simp only [find] at h
      rw [toList, List.mem_append, List.mem_cons]
      split at h
      next hs =>
        obtain rfl := Option.some.inj h
        exact ⟨Or.inr (Or.inl rfl), hs⟩
      next => exact ⟨Or.inl (ihl h).1, (ihl h).2⟩
      next => exact ⟨Or.inr (Or.inr (ihr h).1), (ihr h).2⟩

theorem descend_eq_none_iff (t : RBTree α) (p : Path α) :
    descend side t p = none ↔ (find side t).isSome := by
  induction t generalizing p with
  | leaf => simp [descend, find]
  | node c l x r ihl ihr =>
      simp only [descend, find]
      cases side x with
      | none => simp
      | some d =>
          cases d with
          | left => exact ihl _
          | right => exact ihr _

theorem plug_descend {t : RBTree α} {p q : Path α} (h : descend side t p = some q) :
    plug leaf q = plug t p := by
  induction t generalizing p with
  | leaf =>
      obtain rfl := Option.some.inj h
      rfl
  | node c l x r ihl ihr =>
      simp only [descend] at h
      split at h
      · simp at h
      · exact ihl h
      · exact ihr h

theorem length_descend_le {t : RBTree α} {p q : Path α} (h : descend side t p = some q) :
    q.length ≤ p.length + t.height := by
  induction t generalizing p with
  | leaf =>
      obtain rfl := Option.some.inj h
      exact Nat.le_add_right ..
  | node c l x r ihl ihr =>
      simp only [descend] at h
      rw [height]
      split at h
      · simp at h
      · have := ihl h
        rw [List.length_cons] at this
        omega
      · have := ihr h
        rw [List.length_cons] at this
        omega

theorem Hole.descend {t : RBTree α} {p q : Path α} {c : Color} {n : Nat} (hp : Hole p c n)
    (ht : Balanced t c n) (h : descend side t p = some q) : Hole q .black 0 := by
  induction ht generalizing p with
  | leaf =>
      obtain rfl := Option.some.inj h
      exact hp
  | red x hl hr ihl ihr =>
      simp only [RedBlack.descend] at h
      split at h
      · simp at h
      · exact ihl (.underRed .left x hr hp) h
      · exact ihr (.underRed .right x hl hp) h
  | black x hl hr ihl ihr =>
      simp only [RedBlack.descend] at h
      split at h
      · simp at h
      · exact ihl (.underBlack .left x _ hr hp) h
      · exact ihr (.underBlack .right x _ hl hp) h

end Descent

/-! ### Search trees -/

section Sorted

variable {κ : Type*} [LinearOrder κ] (key : α → κ)

/-- Larger keys to the left. -/
def Sorted (xs : List α) : Prop := xs.Pairwise fun a b => key a > key b

/-- The side to look for `k` on. -/
def sideOf (k : κ) (x : α) : Option Side :=
  if k > key x then some .left else if k < key x then some .right else none

variable {key}

theorem sideOf_eq_none {k : κ} {x : α} : sideOf key k x = none ↔ key x = k := by
  unfold sideOf
  rcases lt_trichotomy k (key x) with h | h | h
  · simp [h, h.not_gt, h.ne']
  · simp [h]
  · simp [h, h.ne]

theorem sideOf_eq_left {k : κ} {x : α} : sideOf key k x = some .left ↔ k > key x := by
  unfold sideOf
  split_ifs <;> simp_all

theorem sideOf_eq_right {k : κ} {x : α} : sideOf key k x = some .right ↔ k < key x := by
  unfold sideOf
  rcases lt_trichotomy k (key x) with h | h | h
  · simp [h, h.not_gt]
  · simp [h]
  · simp [h, h.not_gt]

/-- A search tree's descent for a key stops at the one element that has it. -/
theorem find_eq_some_iff {k : κ} {t : RBTree α} (hsorted : Sorted key t.toList) {x : α} :
    find (sideOf key k) t = some x ↔ x ∈ t.toList ∧ key x = k := by
  constructor
  · intro h
    obtain ⟨hmem, hside⟩ := find_mem h
    exact ⟨hmem, sideOf_eq_none.mp hside⟩
  · intro h
    obtain ⟨hx, rfl⟩ := h
    induction t with
    | leaf => simp [toList] at hx
    | node c l y r ihl ihr =>
        rw [toList, Sorted, List.pairwise_append, List.pairwise_cons] at hsorted
        obtain ⟨hl, ⟨hy, hr⟩, hcross⟩ := hsorted
        rw [toList, List.mem_append, List.mem_cons] at hx
        have hleft : x ∈ l.toList → key x > key y := fun h => hcross x h y List.mem_cons_self
        rw [find]
        rcases hx with hx | rfl | hx
        · rw [sideOf_eq_left.mpr (hleft hx)]
          exact ihl hl hx
        · rw [sideOf_eq_none.mpr rfl]
        · rw [sideOf_eq_right.mpr (hy x hx)]
          exact ihr hr hx

/-- Every element met before the place the descent runs into has a larger key, every one after it a
smaller one. -/
theorem descend_between {k : κ} {t : RBTree α} {p q : Path α} (hsorted : Sorted key (plug t p).toList)
    (hbefore : ∀ y ∈ Path.before p, key y > k) (hafter : ∀ y ∈ Path.after p, key y < k)
    (h : descend (sideOf key k) t p = some q) :
    (∀ y ∈ Path.before q, key y > k) ∧ ∀ y ∈ Path.after q, key y < k := by
  induction t generalizing p with
  | leaf =>
      obtain rfl := Option.some.inj h
      exact ⟨hbefore, hafter⟩
  | node c l x r ihl ihr =>
      have hnode : Sorted key (l.toList ++ x :: r.toList) := by
        rw [toList_plug] at hsorted
        exact (hsorted.sublist (List.sublist_append_right _ _)).sublist (List.sublist_append_left _ _)
      rw [Sorted, List.pairwise_append, List.pairwise_cons] at hnode
      obtain ⟨-, ⟨hx, -⟩, hcross⟩ := hnode
      simp only [descend] at h
      split at h
      · simp at h
      next hside =>
        rw [sideOf_eq_left] at hside
        refine ihl (p := ⟨.left, c, x, r⟩ :: p) hsorted hbefore ?_ h
        intro y hy
        simp only [Path.after, List.cons_append, List.mem_cons, List.mem_append] at hy
        rcases hy with rfl | hy | hy
        · exact hside
        · exact (hx y hy).trans hside
        · exact hafter y hy
      next hside =>
        rw [sideOf_eq_right] at hside
        refine ihr (p := ⟨.right, c, x, l⟩ :: p) hsorted ?_ hafter h
        intro y hy
        simp only [Path.before, List.mem_append, List.mem_singleton] at hy
        rcases hy with hy | hy | rfl
        · exact hbefore y hy
        · exact lt_trans hside (hcross y hy x List.mem_cons_self)
        · exact hside

theorem Sorted.insert {x : α} {t : RBTree α} {q : Path α} (hsorted : Sorted key t.toList)
    (h : descend (sideOf key (key x)) t [] = some q) (c : Color) :
    Sorted key (plug (node c leaf x leaf) q).toList := by
  have hplug : plug leaf q = t := plug_descend h
  obtain ⟨hbefore, hafter⟩ := descend_between (p := []) hsorted (by simp [Path.before]) (by simp [Path.after]) h
  rw [← hplug, toList_plug, toList, List.nil_append, Sorted, List.pairwise_append] at hsorted
  obtain ⟨hb, ha, hba⟩ := hsorted
  rw [toList_plug, Sorted, List.pairwise_append]
  simp only [toList, List.nil_append, List.cons_append, List.pairwise_cons, List.mem_cons]
  refine ⟨hb, ⟨hafter, ha⟩, ?_⟩
  rintro y hy z (rfl | hz)
  · exact hbefore y hy
  · exact hba y hy z hz

end Sorted

end RedBlack
