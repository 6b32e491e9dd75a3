import SimpDserver.Forward.Code

/-!
# The pending table

Which requests wait in which list, in the order of their arrival. `gethostaddr` puts a request at the
end of the list its ID hashes to; the loop of `parse_response` takes the first request with the
response's ID off its list, or runs back to the head.
-/

namespace SimpDserver.Daemon

open CircularList Links

/-- The lists hold the requests `T`, each in the list of its ID. -/
structure Table (s : Forward) (T : BitVec 32 → List Nat) : Prop where
  circular : ∀ h, s.links.Circular (.head h) ((T h).map Ref.node)
  hashed : ∀ h, ∀ id ∈ T h, ∃ n, s.node (.node id) = some n ∧ integerHash n.iden = h

variable {s : Forward} {T : BitVec 32 → List Nat}

theorem Table.init {s : Forward} (h : s.links = listInit) : Table s fun _ => [] where
  circular k := by
    rw [h]
    refine ⟨?_, List.nodup_singleton _⟩
    rw [List.map_nil, List.nil_append, List.isChain_cons_cons]
    exact ⟨⟨rfl, rfl⟩, List.IsChain.singleton _⟩
  hashed _ _ h := by simp at h

theorem Table.nodup (hT : Table s T) (h : BitVec 32) : (T h).Nodup :=
  (List.nodup_cons.mp (hT.circular h).nodup).2.of_map

theorem Table.unique (hT : Table s T) {h k : BitVec 32} {id : Nat} (hh : id ∈ T h) (hk : id ∈ T k) :
    h = k := by
  obtain ⟨n, hn, rfl⟩ := hT.hashed h id hh
  obtain ⟨n', hn', rfl⟩ := hT.hashed k id hk
  rw [hn] at hn'
  rw [Option.some.inj hn']

def Waits (s : Forward) (id : Nat) : Prop :=
  ∃ (h : BitVec 32) (ids : List Nat), s.links.Circular (.head h) (ids.map Ref.node) ∧ id ∈ ids

theorem Table.waits_iff (hT : Table s T) {id : Nat} : Waits s id ↔ ∃ h, id ∈ T h := by
  constructor
  · intro hwaits
    obtain ⟨h, ids, hids, hid⟩ := hwaits
    have heq := (hT.circular h).unique hids
    rw [← List.map_injective_iff.mpr (fun _ _ => Ref.node.inj) heq] at hid
    exact ⟨h, hid⟩
  · intro hmem
    obtain ⟨h, hid⟩ := hmem
    exact ⟨h, T h, hT.circular h, hid⟩

/-- Changes to nodes that keep the IDs of those that wait. -/
theorem Table.congr {s' : Forward} (hT : Table s T) (hlinks : s'.links = s.links)
    (hnode : ∀ h, ∀ id ∈ T h, (s'.node (.node id)).map Node.iden = (s.node (.node id)).map Node.iden) :
    Table s' T where
  circular h := hlinks ▸ hT.circular h
  hashed h id hid := by
    obtain ⟨n, hn, hhash⟩ := hT.hashed h id hid
    have hiden := hnode h id hid
    rw [hn, Option.map_some, Option.map_eq_some_iff] at hiden
    obtain ⟨n', hn', hiden⟩ := hiden
    exact ⟨n', hn', by rwa [hiden]⟩

theorem Table.store {s' : Forward} (hT : Table s T) {r : Ref} {n n' : Node} (hn : s.node r = some n)
    (hiden : n'.iden = n.iden) (hlinks : s'.links = s.links) (hnode : s'.node = Function.update s.node r (some n')) :
    Table s' T := by
  apply hT.congr hlinks
  intro h a _
  by_cases ha : Ref.node a = r
  · rw [ha, hnode, Function.update_self, hn, Option.map_some, Option.map_some, hiden]
  · rw [hnode, Function.update_of_ne ha]

/-- A change to a node in none of the lists. -/
theorem Table.update {s' : Forward} (hT : Table s T) {r : Ref} {n : Option Node} (hr : ∀ h, ∀ id ∈ T h, r ≠ .node id)
    (hlinks : s'.links = s.links) (hnode : s'.node = Function.update s.node r n) : Table s' T := by
  apply hT.congr hlinks
  intro h id hid
  rw [hnode, Function.update_of_ne (hr h id hid).symm]

theorem ne_node_of_not_mem {id : Nat} (hid : ∀ h, id ∉ T h) (h : BitVec 32) :
    ∀ a ∈ T h, Ref.node id ≠ .node a := by
  rintro a ha heq
  cases heq
  exact hid h ha

theorem exists_concat {α : Type*} (x : α) (xs : List α) : ∃ init last, x :: xs = init ++ [last] :=
  ⟨(x :: xs).dropLast, (x :: xs).getLast (List.cons_ne_nil x xs), (List.dropLast_append_getLast _).symm⟩

theorem last_mem {α : Type*} {x last : α} {xs init : List α} (h : x :: xs = init ++ [last]) :
    last ∈ x :: xs := by
  rw [h]
  simp

theorem Table.listAddTail (hT : Table s T) {id : Nat} {n : Node} (hn : s.node (.node id) = some n)
    (hid : ∀ h, id ∉ T h) :
    ∃ links, listAddTail s.links (.node id) (.head (integerHash n.iden)) = some links ∧
      Table { s with links := links }
        (Function.update T (integerHash n.iden) (T (integerHash n.iden) ++ [id])) := by
  obtain ⟨init, last, hlast⟩ :=
    exists_concat (Ref.head (integerHash n.iden)) ((T (integerHash n.iden)).map Ref.node)
  have hprev := (hT.circular (integerHash n.iden)).prev_head hlast
  have hnew : ∀ h, Ref.node id ∉ Ref.head h :: (T h).map Ref.node := fun h => by simpa using hid h
  refine ⟨_, by rw [Daemon.listAddTail, hprev]; rfl, ⟨?_, ?_⟩⟩
  · intro h
    by_cases hh : h = integerHash n.iden
    · subst hh
      rw [Function.update_self, List.map_append]
      exact (hT.circular _).insertBetween hlast (hnew _)
    · rw [Function.update_of_ne hh]
      apply (hT.circular h).insertBetween_other (hnew h)
      · have hmem := last_mem hlast
        rw [List.mem_cons, List.mem_map] at hmem ⊢
        rintro (rfl | ⟨a, ha, rfl⟩)
        · simp at hmem
          exact hh hmem
        · obtain hmem | ⟨b, hb, hba⟩ := hmem
          · simp at hmem
          · exact hh (hT.unique ha (Ref.node.inj hba ▸ hb))
      · simp [Ne.symm hh]
  · intro h a ha
    by_cases hh : h = integerHash n.iden
    · subst hh
      rw [Function.update_self, List.mem_append, List.mem_singleton] at ha
      rcases ha with ha | rfl
      · exact hT.hashed _ a ha
      · exact ⟨n, hn, rfl⟩
    · rw [Function.update_of_ne hh] at ha
      exact hT.hashed h a ha

theorem Table.gethostaddr (hT : Table s T) {id f : Nat} {n : Node} (hn : s.node (.node id) = some n)
    (hflags : n.flags = some f) (hid : ∀ h, id ∉ T h) :
    ∃ links, gethostaddr s (.node id) =
        some ({ s with node := Function.update s.node (.node id) (some (n.setRd f)), links := links },
          (n.setRd f).datagram) ∧
      Table { s with node := Function.update s.node (.node id) (some (n.setRd f)), links := links }
        (Function.update T (integerHash n.iden) (T (integerHash n.iden) ++ [id])) := by
  have hT' : Table { s with node := Function.update s.node (.node id) (some (n.setRd f)) } T :=
    hT.update (ne_node_of_not_mem hid) rfl rfl
  obtain ⟨links, hadd, htable⟩ := hT'.listAddTail (Function.update_self ..) hid
  refine ⟨links, ?_, htable⟩
  simp only [Daemon.gethostaddr, hn, hflags, Option.bind_eq_bind, Option.bind_some, hadd]
  rfl

theorem Table.not_mem (hT : Table s T) {id : Nat} (hfresh : s.node (.node id) = none)
    (h : BitVec 32) : id ∉ T h := by
  intro hid
  obtain ⟨n, hn, -⟩ := hT.hashed h id hid
  rw [hfresh] at hn
  exact absurd hn.symm (Option.some_ne_none n)

theorem Table.gethostaddr_deliver (hT : Table s T) {id f : Nat} {n : Node} (hid : ∀ h, id ∉ T h)
    (hflags : n.flags = some f) :
    ∃ links, Daemon.gethostaddr (s.deliver id n) (.node id) =
        some ({ s.deliver id (n.setRd f) with links := links }, (n.setRd f).datagram) ∧
      Table { s.deliver id (n.setRd f) with links := links }
        (Function.update T (integerHash n.iden) (T (integerHash n.iden) ++ [id])) := by
  have hT' : Table (s.deliver id n) T := hT.update (ne_node_of_not_mem hid) rfl rfl
  obtain ⟨links, hask, htable⟩ := hT'.gethostaddr (Function.update_self ..) hflags hid
  simp only [Forward.deliver, Function.update_idem] at hask htable ⊢
  exact ⟨links, hask, htable⟩

theorem Table.listDel (hT : Table s T) {h : BitVec 32} {id : Nat} {pre post : List Nat}
    (hsplit : T h = pre ++ id :: post) :
    ∃ links, listDel s.links (.node id) = some links ∧
      Table { s with links := links } (Function.update T h (pre ++ post)) := by
  have hcircular := hT.circular h
  rw [hsplit, List.map_append, List.map_cons] at hcircular
  obtain ⟨init, p, hp⟩ := exists_concat (Ref.head h) (pre.map Ref.node)
  obtain ⟨n, rest, hn⟩ : ∃ n rest, post.map Ref.node ++ [Ref.head h] = n :: rest := by
    cases post <;> simp
  obtain ⟨hprev, hnext, hout⟩ := hcircular.unlink hp hn
  have hpmem : p = .head h ∨ ∃ a ∈ T h, p = .node a := by
    have := last_mem hp
    rw [List.mem_cons, List.mem_map] at this
    rcases this with rfl | ⟨a, ha, rfl⟩
    · exact Or.inl rfl
    · exact Or.inr ⟨a, by simp [hsplit, ha], rfl⟩
  have hnmem : n = .head h ∨ ∃ a ∈ T h, n = .node a := by
    have : n ∈ post.map Ref.node ++ [Ref.head h] := hn ▸ List.mem_cons_self
    rw [List.mem_append, List.mem_map, List.mem_singleton] at this
    rcases this with ⟨a, ha, rfl⟩ | rfl
    · exact Or.inr ⟨a, by simp [hsplit, ha], rfl⟩
    · exact Or.inl rfl
  have hother : ∀ k, k ≠ h → ∀ r, (r = .head h ∨ ∃ a ∈ T h, r = .node a) →
      r ∉ Ref.head k :: (T k).map Ref.node := by
    rintro k hk r (rfl | ⟨a, ha, rfl⟩) hmem
    · simp [Ne.symm hk] at hmem
    · rw [List.mem_cons, List.mem_map] at hmem
      obtain hmem | ⟨b, hb, hba⟩ := hmem
      · simp at hmem
      · exact hk (hT.unique (Ref.node.inj hba ▸ hb) ha)
  refine ⟨s.links.unlink (.node id) p n, ?_, ⟨?_, ?_⟩⟩
  · simp only [Daemon.listDel, hprev, hnext, Option.bind_eq_bind, Option.bind_some]
    rfl
  · intro k
    by_cases hk : k = h
    · subst hk
      rw [Function.update_self, List.map_append]
      exact hout
    · rw [Function.update_of_ne hk]
      exact (hT.circular k).unlink_other (hother k hk _ (Or.inr ⟨id, by simp [hsplit], rfl⟩))
        (hother k hk _ hpmem) (hother k hk _ hnmem)
  · intro k a ha
    by_cases hk : k = h
    · subst hk
      rw [Function.update_self, List.mem_append] at ha
      exact hT.hashed k a (by rw [hsplit, List.mem_append, List.mem_cons]; tauto)
    · rw [Function.update_of_ne hk] at ha
      exact hT.hashed k a ha

/-! ### The search -/

/-- Requests the cursor passes. -/
def Passed (s : Forward) (iden : BitVec 16) (head : Ref) (pre : List Ref) : Prop :=
  ∀ r ∈ pre, r ≠ head ∧ ∃ n, s.node r = some n ∧ n.iden ≠ iden

/-- The loop past requests with other IDs. -/
theorem findItem_skip {iden : BitVec 16} {head item nxt item' nxt' : Ref} {pre rest rest' : List Ref}
    (fuel : Nat) (hpre : Passed s iden head pre)
    (hchain : (item :: nxt :: rest).IsChain s.links.Linked)
    (hsplit : item :: nxt :: rest = pre ++ item' :: nxt' :: rest') :
    findItem s iden head (pre.length + fuel) item nxt =
      (findItem s iden head fuel item' nxt').map fun r => (r.1, r.2.1, pre ++ r.2.2) := by
  induction pre generalizing item nxt rest with
  | nil =>
      obtain ⟨rfl, rfl, -⟩ : item = item' ∧ nxt = nxt' ∧ rest = rest' := by simpa using hsplit
      cases h : findItem s iden head fuel item nxt <;> simp [h]
  | cons a pre ih =>
      obtain ⟨rfl, hsplit'⟩ := List.cons.inj hsplit
      obtain ⟨hne, n, hn, hiden⟩ := hpre item List.mem_cons_self
      obtain ⟨b, tail, htail⟩ : ∃ b tail, rest = b :: tail := by
        cases rest with
        | nil =>
            have := congrArg List.length hsplit'
            simp only [List.append_eq, List.length_append, List.length_cons, List.length_nil] at this
            omega
        | cons b tail => exact ⟨b, tail, rfl⟩
      subst htail
      rw [List.isChain_cons_cons] at hchain
      have hnext : s.links.next nxt = some b := (List.isChain_cons_cons.mp hchain.2).1.1
      rw [List.length_cons, Nat.add_right_comm, findItem, if_neg hne]
      simp only [hn, Option.bind_eq_bind, Option.bind_some, hiden, if_false, hnext]
      rw [ih (fun r hr => hpre r (List.mem_cons_of_mem _ hr)) hchain.2 hsplit']
      cases findItem s iden head fuel item' nxt' <;> rfl

/-- Once around a list and one step on, as the two cursors go. -/
theorem cycle_of_circular {L : Links Ref} {head : Ref} {xs : List Ref} (h : L.Circular head xs) :
    ∃ first second rest, L.next head = some first ∧ L.next first = some second ∧
      first :: second :: rest = xs ++ [head, first] ∧ (first :: second :: rest).IsChain L.Linked := by
  have hchain := h.chain
  obtain ⟨first, tail, htail⟩ : ∃ first tail, xs ++ [head] = first :: tail := by
    cases xs <;> simp
  rw [htail, List.isChain_cons_cons] at hchain
  obtain ⟨second, rest, hrest⟩ : ∃ second rest, tail ++ [first] = second :: rest := by
    cases tail <;> simp
  have hsplit : xs ++ [head, first] = first :: second :: rest := by
    rw [← hrest, ← List.cons_append, ← htail]
    simp
  have hcycle : (first :: second :: rest).IsChain L.Linked := by
    rw [← hsplit, List.isChain_append_cons_cons, htail]
    exact ⟨hchain.2, hchain.1, List.IsChain.singleton first⟩
  exact ⟨first, second, rest, hchain.1.1, (List.isChain_cons_cons.mp hcycle).1.1, hsplit.symm, hcycle⟩

section Match

variable {buff : Int → Byte} {fuel : Nat}

/-- A response with the ID of a pending request takes the oldest such request off its list. -/
theorem Table.matchItem_hit (hT : Table s T) {id : Nat} {n : Node} {pre post : List Nat}
    (hsplit : T (integerHash (load16 (buff 0) (buff 1))) = pre ++ id :: post)
    (hn : s.node (.node id) = some n) (hiden : n.iden = load16 (buff 0) (buff 1))
    (hpre : ∀ a ∈ pre, ∃ n, s.node (.node a) = some n ∧ n.iden ≠ load16 (buff 0) (buff 1))
    (hfuel : pre.length < fuel) :
    ∃ links, matchItem fuel s buff =
        some (.node id, { s with links := links }, (pre ++ [id]).map Ref.node) ∧
      Table { s with links := links }
        (Function.update T (integerHash (load16 (buff 0) (buff 1))) (pre ++ post)) := by
  obtain ⟨first, second, rest, hfirst, hsecond, hcycle, hchain⟩ :=
    cycle_of_circular (hT.circular (integerHash (load16 (buff 0) (buff 1))))
  obtain ⟨links, hdel, htable⟩ := hT.listDel hsplit
  obtain ⟨nxt', rest', hrest'⟩ : ∃ nxt' rest', post.map Ref.node ++
      [Ref.head (integerHash (load16 (buff 0) (buff 1))), first] = nxt' :: rest' := by
    cases post <;> simp
  have hpassed : Passed s (load16 (buff 0) (buff 1)) (.head (integerHash (load16 (buff 0) (buff 1))))
      (pre.map Ref.node) := by
    intro r hr
    obtain ⟨a, ha, rfl⟩ := List.mem_map.mp hr
    exact ⟨by simp, hpre a ha⟩
  rw [hsplit, List.map_append, List.map_cons, List.append_assoc, List.cons_append, hrest'] at hcycle
  obtain ⟨f, rfl⟩ := Nat.exists_eq_add_of_lt hfuel
  have hskip := findItem_skip (f + 1) hpassed hchain hcycle
  have hhit : findItem s (load16 (buff 0) (buff 1)) (.head (integerHash (load16 (buff 0) (buff 1)))) (f + 1)
      (.node id) nxt' = some (.node id, links, [.node id]) := by
    simp only [findItem, reduceCtorEq, if_false, hn, hiden, if_true, hdel, Option.bind_eq_bind,
      Option.bind_some, Option.pure_def]
  rw [List.length_map, hhit, Option.map_some, ← Nat.add_assoc] at hskip
  refine ⟨links, ?_, htable⟩
  simp only [matchItem, hfirst, hsecond, Option.bind_eq_bind, Option.bind_some, hskip, Option.pure_def,
    List.map_append, List.map_cons, List.map_nil]

/-- A response with an ID that no pending request has runs the cursor back to the list head. -/
theorem Table.matchItem_miss (hT : Table s T)
    (hnone : ∀ a ∈ T (integerHash (load16 (buff 0) (buff 1))), ∃ n, s.node (.node a) = some n ∧
      n.iden ≠ load16 (buff 0) (buff 1))
    (hfuel : (T (integerHash (load16 (buff 0) (buff 1)))).length < fuel) :
    matchItem fuel s buff = some (.head (integerHash (load16 (buff 0) (buff 1))), s,
      (T (integerHash (load16 (buff 0) (buff 1)))).map Ref.node) := by
  obtain ⟨first, second, rest, hfirst, hsecond, hcycle, hchain⟩ :=
    cycle_of_circular (hT.circular (integerHash (load16 (buff 0) (buff 1))))
  have hpassed : Passed s (load16 (buff 0) (buff 1)) (.head (integerHash (load16 (buff 0) (buff 1))))
      ((T (integerHash (load16 (buff 0) (buff 1)))).map Ref.node) := by
    intro r hr
    obtain ⟨a, ha, rfl⟩ := List.mem_map.mp hr
    exact ⟨by simp, hnone a ha⟩
  obtain ⟨f, rfl⟩ := Nat.exists_eq_add_of_lt hfuel
  have hskip := findItem_skip (f + 1) hpassed hchain hcycle
  have hmiss : findItem s (load16 (buff 0) (buff 1)) (.head (integerHash (load16 (buff 0) (buff 1)))) (f + 1)
      (.head (integerHash (load16 (buff 0) (buff 1)))) first =
        some (.head (integerHash (load16 (buff 0) (buff 1))), s.links, []) := by
    rw [findItem, if_pos rfl]
  rw [List.length_map, hmiss, Option.map_some, ← Nat.add_assoc, List.append_nil] at hskip
  simp only [matchItem, hfirst, hsecond, Option.bind_eq_bind, Option.bind_some, hskip, Option.pure_def]

end Match

end SimpDserver.Daemon
