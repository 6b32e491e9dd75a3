import Mathlib.Tactic

/-!
# Circular doubly linked lists

Any number of lists share one set of links. A list is a head and the entries after it, back to the
head: following `next` and `prev` are inverse along that circle. Linking in and unlinking touch the
neighbours only, so each is local to the list it happens in.
-/

namespace CircularList

/-- The two link fields of every head and entry; `none` is the null pointer. -/
structure Links (ρ : Type*) where
  next : ρ → Option ρ
  prev : ρ → Option ρ

namespace Links

variable {ρ : Type*}

/-- `a` and `b` are neighbours. -/
def Linked (L : Links ρ) (a b : ρ) : Prop := L.next a = some b ∧ L.prev b = some a

/-- The list at `head` has the entries `xs`, in order. -/
structure Circular (L : Links ρ) (head : ρ) (xs : List ρ) : Prop where
  chain : (head :: (xs ++ [head])).IsChain L.Linked
  nodup : (head :: xs).Nodup

theorem chain_congr {L L' : Links ρ} {xs : List ρ} (h : xs.IsChain L.Linked)
    (hnext : ∀ a ∈ xs.dropLast, L'.next a = L.next a) (hprev : ∀ a ∈ xs.tail, L'.prev a = L.prev a) :
    xs.IsChain L'.Linked := by
  induction xs with
  | nil => exact List.IsChain.nil
  | cons a xs ih =>
      cases xs with
      | nil => exact List.IsChain.singleton a
      | cons b xs =>
          rw [List.isChain_cons_cons] at h ⊢
          rw [List.dropLast_cons_cons, List.forall_mem_cons] at hnext
          rw [List.tail_cons, List.forall_mem_cons] at hprev
          exact ⟨⟨hnext.1.trans h.1.1, hprev.1.trans h.1.2⟩, ih h.2 hnext.2 hprev.2⟩

theorem Circular.congr {L L' : Links ρ} {head : ρ} {xs : List ρ} (h : L.Circular head xs)
    (hnext : ∀ a ∈ head :: xs, L'.next a = L.next a) (hprev : ∀ a ∈ head :: xs, L'.prev a = L.prev a) :
    L'.Circular head xs where
  chain := chain_congr h.chain
    (fun a ha => hnext a (by
      rw [← List.cons_append, List.dropLast_concat] at ha
      exact ha))
    (fun a ha => hprev a (by simpa [or_comm] using ha))
  nodup := h.nodup

theorem Circular.prev_head {L : Links ρ} {head : ρ} {xs init : List ρ} {last : ρ}
    (h : L.Circular head xs) (hlast : head :: xs = init ++ [last]) : L.prev head = some last := by
  have hchain := h.chain
  rw [← List.cons_append, hlast, List.append_assoc, List.singleton_append, List.isChain_append_cons_cons] at hchain
  exact hchain.2.1.2

theorem chain_unique {L : Links ρ} {a head : ρ} {xs ys : List ρ} (hx : (a :: (xs ++ [head])).IsChain L.Linked)
    (hy : (a :: (ys ++ [head])).IsChain L.Linked) (hxs : head ∉ xs) (hys : head ∉ ys) : xs = ys := by
  induction xs generalizing a ys with
  | nil =>
      cases ys with
      | nil => rfl
      | cons y ys =>
          have hnext := (List.isChain_cons_cons.mp hx).1.1
          have hnext' := (List.isChain_cons_cons.mp hy).1.1
          rw [hnext] at hnext'
          exact absurd (Option.some.inj hnext' ▸ List.mem_cons_self) hys
  | cons x xs ih =>
      cases ys with
      | nil =>
          have hnext := (List.isChain_cons_cons.mp hx).1.1
          have hnext' := (List.isChain_cons_cons.mp hy).1.1
          rw [hnext] at hnext'
          exact absurd (Option.some.inj hnext' ▸ List.mem_cons_self) hxs
      | cons y ys =>
          obtain ⟨hnext, hx⟩ := List.isChain_cons_cons.mp hx
          obtain ⟨hnext', hy⟩ := List.isChain_cons_cons.mp hy
          obtain rfl : x = y := Option.some.inj (hnext.1.symm.trans hnext'.1)
          rw [ih hx hy (fun h => hxs (List.mem_cons_of_mem _ h)) fun h => hys (List.mem_cons_of_mem _ h)]

theorem Circular.unique {L : Links ρ} {head : ρ} {xs ys : List ρ} (hx : L.Circular head xs)
    (hy : L.Circular head ys) : xs = ys :=
  chain_unique hx.chain hy.chain (List.nodup_cons.mp hx.nodup).1 (List.nodup_cons.mp hy.nodup).1

/-- At `r` the two links are inverse to each other. -/
def InverseAt (L : Links ρ) (r : ρ) : Prop :=
  (L.next r).bind L.prev = some r ∧ (L.prev r).bind L.next = some r

/-- In a chain, an element that is not the last is related to the next one. -/
theorem exists_rel_of_mem_dropLast {R : ρ → ρ → Prop} {xs : List ρ} (h : xs.IsChain R) {a : ρ}
    (ha : a ∈ xs.dropLast) : ∃ b, R a b := by
  induction xs with
  | nil => exact absurd ha List.not_mem_nil
  | cons x xs ih =>
      cases xs with
      | nil => exact absurd ha List.not_mem_nil
      | cons y ys =>
          rw [List.isChain_cons_cons] at h
          rw [List.dropLast_cons_cons, List.mem_cons] at ha
          rcases ha with rfl | ha
          · exact ⟨y, h.1⟩
          · exact ih h.2 ha

/-- And one that is not the first, the one before it to it: the same in the chain read backwards. -/
theorem exists_rel_of_mem_tail {R : ρ → ρ → Prop} {xs : List ρ} (h : xs.IsChain R) {b : ρ} (hb : b ∈ xs.tail) :
    ∃ a, R a b := by
  have hback : xs.reverse.IsChain (flip R) := List.isChain_reverse.mpr h
  have hmem : b ∈ xs.reverse.dropLast := by
    rw [List.dropLast_reverse, List.mem_reverse]
    exact hb
  exact exists_rel_of_mem_dropLast hback hmem

theorem Circular.inverseAt {L : Links ρ} {head r : ρ} {xs : List ρ} (h : L.Circular head xs) (hr : r ∈ head :: xs) :
    L.InverseAt r := by
  constructor
  · obtain ⟨next, hnext, hback⟩ := exists_rel_of_mem_dropLast h.chain (a := r) (by
      rw [← List.cons_append, List.dropLast_concat]
      exact hr)
    rw [hnext, Option.bind_some, hback]
  · obtain ⟨prev, hback, hprev⟩ := exists_rel_of_mem_tail h.chain (b := r) (by simpa [or_comm] using hr)
    rw [hprev, Option.bind_some, hback]

variable [DecidableEq ρ]

/-- The entries behind `r`, along `next` until it comes back to the head, in at most `fuel` steps. -/
def entries (L : Links ρ) (head : ρ) : (fuel : Nat) → (r : ρ) → Option (List ρ)
  | 0, _ => none
  | fuel + 1, r => do
      let next ← L.next r
      if next = head then return []
      else
        let rest ← L.entries head fuel next
        return next :: rest

theorem entries_of_chain {L : Links ρ} {head r : ρ} {xs : List ρ} {fuel : Nat}
    (h : (r :: (xs ++ [head])).IsChain L.Linked) (hhead : head ∉ xs) (hfuel : xs.length < fuel) :
    L.entries head fuel r = some xs := by
  induction xs generalizing r fuel with
  | nil =>
      obtain ⟨f, rfl⟩ := Nat.exists_eq_add_of_lt hfuel
      have hnext := (List.isChain_cons_cons.mp h).1.1
      simp only [entries, hnext, if_true, Option.bind_eq_bind, Option.bind_some, Option.pure_def]
  | cons x xs ih =>
      obtain ⟨f, rfl⟩ := Nat.exists_eq_add_of_lt hfuel
      obtain ⟨hlinked, hrest⟩ := List.isChain_cons_cons.mp h
      have hne : x ≠ head := fun heq => hhead (heq ▸ List.mem_cons_self)
      have htail : L.entries head ((x :: xs).length + f) x = some xs := by
        apply ih hrest
        · intro hmem
          exact hhead (List.mem_cons_of_mem _ hmem)
        · rw [List.length_cons]
          omega
      simp only [entries, hlinked.1, hne, if_false, htail, Option.bind_eq_bind, Option.bind_some, Option.pure_def]

theorem Circular.entries {L : Links ρ} {head : ρ} {xs : List ρ} (h : L.Circular head xs) {fuel : Nat}
    (hfuel : xs.length < fuel) : L.entries head fuel head = some xs :=
  entries_of_chain h.chain (List.nodup_cons.mp h.nodup).1 hfuel

def setNext (L : Links ρ) (a : ρ) (v : Option ρ) : Links ρ := { L with next := Function.update L.next a v }

def setPrev (L : Links ρ) (a : ρ) (v : Option ρ) : Links ρ := { L with prev := Function.update L.prev a v }

/-- Link `new` in between two neighbours. -/
def insertBetween (L : Links ρ) (new prev next : ρ) : Links ρ :=
  (((L.setPrev next (some new)).setNext new (some next)).setPrev new (some prev)).setNext prev (some new)

def close (L : Links ρ) (prev next : ρ) : Links ρ := (L.setPrev next (some prev)).setNext prev (some next)

/-- Unlink `entry`, whose own links become null. -/
def unlink (L : Links ρ) (entry prev next : ρ) : Links ρ :=
  ((L.close prev next).setNext entry none).setPrev entry none

/-- Linking in before the head appends. -/
theorem Circular.insertBetween {L : Links ρ} {head new last : ρ} {xs init : List ρ}
    (h : L.Circular head xs) (hlast : head :: xs = init ++ [last]) (hnew : new ∉ head :: xs) :
    (L.insertBetween new last head).Circular head (xs ++ [new]) := by
  have hnodup := h.nodup
  have hchain := h.chain
  rw [← List.cons_append, hlast, List.append_assoc, List.singleton_append,
    List.isChain_append_cons_cons] at hchain
  have hne : new ≠ head := fun heq => hnew (heq ▸ List.mem_cons_self)
  have hnl : new ≠ last := fun heq => hnew (heq ▸ hlast ▸ by simp)
  rw [hlast] at hnew hnodup
  constructor
  · rw [← List.cons_append, ← List.cons_append, hlast, List.append_assoc, List.append_assoc,
      List.singleton_append, List.singleton_append, List.isChain_append_cons_cons, List.isChain_cons_cons]
    refine ⟨chain_congr hchain.1 ?_ ?_, ⟨?_, ?_⟩, ⟨?_, ?_⟩, List.IsChain.singleton head⟩
    · intro a ha
      rw [List.dropLast_concat] at ha
      have hal : a ≠ last := by
        rintro rfl
        exact (List.nodup_append.mp hnodup).2.2 a ha a (by simp) rfl
      have han : a ≠ new := ne_of_mem_of_not_mem (List.mem_append_left _ ha) hnew
      simp [Links.insertBetween, setNext, setPrev, hal, han]
    · intro a ha
      have hah : a ≠ head := by
        rintro rfl
        rw [← hlast] at ha hnodup
        exact (List.nodup_cons.mp hnodup).1 ha
      have han : a ≠ new := ne_of_mem_of_not_mem (List.mem_of_mem_tail ha) hnew
      simp [Links.insertBetween, setNext, setPrev, hah, han]
    · simp [Links.insertBetween, setNext, setPrev]
    · simp [Links.insertBetween, setNext, setPrev]
    · simp [Links.insertBetween, setNext, setPrev, hnl]
    · simp [Links.insertBetween, setNext, setPrev, hne.symm]
  · rw [← List.cons_append, hlast]
    exact (List.nodup_append.mpr ⟨hnodup, List.nodup_singleton new, fun a ha b hb hab =>
      hnew (by rw [List.mem_singleton] at hb; rwa [← hb, ← hab])⟩)

theorem Circular.unlink {L : Links ρ} {head x p n : ρ} {xs ys init rest : List ρ}
    (h : L.Circular head (xs ++ x :: ys)) (hp : head :: xs = init ++ [p]) (hn : ys ++ [head] = n :: rest) :
    L.prev x = some p ∧ L.next x = some n ∧ (L.unlink x p n).Circular head (xs ++ ys) := by
  have hnodup := h.nodup
  have hchain := h.chain
  have hsplit : head :: (xs ++ x :: ys ++ [head]) = init ++ p :: x :: n :: rest := by
    rw [List.append_assoc, List.cons_append, hn, ← List.cons_append, hp]
    simp
  rw [hsplit, List.isChain_append_cons_cons, List.isChain_cons_cons] at hchain
  obtain ⟨hleft, ⟨hpx, hxp⟩, ⟨hxn, hnx⟩, hright⟩ := hchain
  rw [← List.cons_append, List.nodup_append] at hnodup
  obtain ⟨hl, hr, hcross⟩ := hnodup
  obtain ⟨hxys, hys⟩ := List.nodup_cons.mp hr
  have hcross' : ∀ a ∈ head :: xs, a ≠ x ∧ a ∉ ys := fun a ha =>
    ⟨hcross a ha x List.mem_cons_self, fun hay => hcross a ha a (List.mem_cons_of_mem _ hay) rfl⟩
  have hpmem : p ∈ head :: xs := hp ▸ by simp
  refine ⟨hxp, hxn, ⟨?_, ?_⟩⟩
  · rw [List.append_assoc, hn, ← List.cons_append, hp, List.append_assoc, List.singleton_append,
      List.isChain_append_cons_cons]
    have hnmem : n ∈ ys ∨ n = head := by
      have : n ∈ ys ++ [head] := hn ▸ List.mem_cons_self
      simpa using this
    have hnne : n ≠ x := by
      rcases hnmem with hmem | rfl
      · exact ne_of_mem_of_not_mem hmem hxys
      · exact (hcross' n List.mem_cons_self).1
    refine ⟨chain_congr hleft ?_ ?_, ⟨?_, ?_⟩, chain_congr hright ?_ ?_⟩
    · intro a ha
      rw [List.dropLast_concat] at ha
      have hmem : a ∈ head :: xs := hp ▸ List.mem_append_left _ ha
      have hap : a ≠ p := by
        rintro rfl
        rw [hp] at hl
        exact (List.nodup_append.mp hl).2.2 a ha a (by simp) rfl
      simp [Links.unlink, close, setNext, setPrev, hap, (hcross' a hmem).1]
    · intro a ha
      rw [← hp, List.tail_cons] at ha
      have han : a ≠ n := by
        rintro rfl
        rcases hnmem with hmem | rfl
        · exact (hcross' a (List.mem_cons_of_mem _ ha)).2 hmem
        · exact (List.nodup_cons.mp hl).1 ha
      simp [Links.unlink, close, setNext, setPrev, han, (hcross' a (List.mem_cons_of_mem _ ha)).1]
    · simp [Links.unlink, close, setNext, setPrev, (hcross' p hpmem).1]
    · simp [Links.unlink, close, setNext, setPrev, hnne]
    · intro a ha
      rw [← hn, List.dropLast_concat] at ha
      have hap : a ≠ p := by
        rintro rfl
        exact (hcross' a hpmem).2 ha
      simp [Links.unlink, close, setNext, setPrev, hap, ne_of_mem_of_not_mem ha hxys]
    · intro a ha
      have hmem : a ∈ ys ++ [head] := hn ▸ List.mem_cons_of_mem _ ha
      have hax : a ≠ x := by
        rcases List.mem_append.mp hmem with hay | hah
        · exact ne_of_mem_of_not_mem hay hxys
        · rw [List.mem_singleton.mp hah]
          exact (hcross' head List.mem_cons_self).1
      have han : a ≠ n := by
        have hnd : (ys ++ [head]).Nodup := List.nodup_append.mpr ⟨hys, List.nodup_singleton head,
          fun b hb c hc hbc => (hcross' head List.mem_cons_self).2 (by
            rw [List.mem_singleton] at hc
            rwa [← hc, ← hbc])⟩
        rw [hn, List.nodup_cons] at hnd
        rintro rfl
        exact hnd.1 ha
      simp [Links.unlink, close, setNext, setPrev, hax, han]
  · rw [← List.cons_append, List.nodup_append]
    exact ⟨hl, hys, fun a ha b hb hab => (hcross' a ha).2 (hab ▸ hb)⟩

theorem Circular.insertBetween_other {L : Links ρ} {head new prev next : ρ} {xs : List ρ}
    (h : L.Circular head xs) (hnew : new ∉ head :: xs) (hprev : prev ∉ head :: xs)
    (hnext : next ∉ head :: xs) : (L.insertBetween new prev next).Circular head xs := by
  apply h.congr
  · intro a ha
    simp [Links.insertBetween, setNext, setPrev, ne_of_mem_of_not_mem ha hnew, ne_of_mem_of_not_mem ha hprev]
  · intro a ha
    simp [Links.insertBetween, setNext, setPrev, ne_of_mem_of_not_mem ha hnew, ne_of_mem_of_not_mem ha hnext]

theorem Circular.unlink_other {L : Links ρ} {head x prev next : ρ} {xs : List ρ} (h : L.Circular head xs)
    (hx : x ∉ head :: xs) (hprev : prev ∉ head :: xs) (hnext : next ∉ head :: xs) :
    (L.unlink x prev next).Circular head xs := by
  apply h.congr
  · intro a ha
    simp [Links.unlink, close, setNext, setPrev, ne_of_mem_of_not_mem ha hx, ne_of_mem_of_not_mem ha hprev]
  · intro a ha
    simp [Links.unlink, close, setNext, setPrev, ne_of_mem_of_not_mem ha hx, ne_of_mem_of_not_mem ha hnext]

end Links

end CircularList
