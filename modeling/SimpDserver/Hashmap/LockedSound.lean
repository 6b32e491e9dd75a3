import SimpDserver.Hashmap.Locked

/-!
# What holds between two steps

The map without the nodes of insertions that are not decided is the map after the calls decided so far, one
after another; a thread that goes down a tree holds the lock of its bucket, so that the tree stands still,
and the rest of its way decides what the whole way would.
-/

namespace SimpDserver.NetHashmap

open RedBlack Atomic Locking Transition

section Congr

variable {α : Type} {f g : α → Option Side}

theorem descend_congr {T : RBTree α} (h : ∀ a ∈ T.toList, f a = g a) (Q : Path α) : descend f T Q = descend g T Q := by
  induction T generalizing Q with
  | leaf => rfl
  | node c l x r ihl ihr =>
      simp only [RBTree.toList, List.mem_append, List.mem_cons] at h
      simp only [descend, h x (Or.inr (Or.inl rfl)), ihl fun a ha => h a (Or.inl ha),
        ihr fun a ha => h a (Or.inr (Or.inr ha))]

theorem find_congr {T : RBTree α} (h : ∀ a ∈ T.toList, f a = g a) : find f T = find g T := by
  induction T with
  | leaf => rfl
  | node c l x r ihl ihr =>
      simp only [RBTree.toList, List.mem_append, List.mem_cons] at h
      simp only [find, h x (Or.inr (Or.inl rfl)), ihl fun a ha => h a (Or.inl ha),
        ihr fun a ha => h a (Or.inr (Or.inr ha))]

end Congr

/-- The string a call is about. -/
def Call.text : Call → List Byte
  | .insert _ domain _ _ => NetHashmap.text domain
  | .search domain _ => NetHashmap.text domain

namespace Locked

variable {τ : Type}

/-- The map without the nodes of the insertions that are not decided. -/
noncomputable def published (x : Locked τ) : Hashmap :=
  { x.map with entry := fun a => @ite _ (a ∈ mallocs x.committed) (Classical.propDecidable _) (x.map.entry a) none }

/-- The places before the decision. -/
def Place.Open : Place → Prop
  | .unlock _ | .leave _ => False
  | _ => True

/-- The places between taking the lock and giving it back. -/
def Place.Locks : Place → Prop
  | .lock | .leave _ => False
  | _ => True

instance : DecidablePred Place.Locks
  | .lock | .leave _ => .isFalse id
  | .descend .. | .link .. | .root | .compare _ | .unlock _ => .isTrue trivial

instance : DecidablePred Place.Open
  | .unlock _ | .leave _ => .isFalse id
  | .lock | .descend .. | .link .. | .root | .compare _ => .isTrue trivial

/-- The node of an insertion that is not decided. -/
def Pc.node : Pc → Option Addr
  | .idle => none
  | .inside c p => if p.Open then c.malloc? else none

/-- How a thread holds the lock of a bucket. -/
def Pc.holds (h : BitVec 32) : Pc → Option Mode
  | .idle => none
  | .inside c p => if p.Locks ∧ c.bucket = h then some c.mode else none

/-- The side to go to from an entry. -/
noncomputable def side (x : Locked τ) (c : Call) : Addr → Option Side := sideOf x.published.key (signed c.text)

/-- How far a call has come in the tree of its bucket. -/
def On (x : Locked τ) (T : RBTree Addr) : Call → Place → Prop
  | _, .lock | _, .unlock _ | _, .leave _ => True
  | c@(.insert ..), .descend tmp parent => ∃ sub Q, plug sub Q = T ∧ tmp = linkOf Q ∧ parent = parentOf Q ∧
      RedBlack.descend (x.side c) T [] = RedBlack.descend (x.side c) sub Q
  | c@(.insert ..), .link tmp parent => ∃ Q, RedBlack.descend (x.side c) T [] = some Q ∧ tmp = linkOf Q ∧
      parent = parentOf Q
  | .search .., .root => True
  | c@(.search ..), .compare tmp => ∃ sub Q, plug sub Q = T ∧ tmp = rootOf sub ∧
      find (x.side c) T = find (x.side c) sub
  | _, _ => False

/-- The node of an insertion that is not decided is filled in and its own. -/
structure Private (x : Locked τ) (a : Addr) (e : Entry) : Prop where
  undecided : a ∉ mallocs x.committed
  given : a ∈ mallocs (calledIn x.log)
  entry : x.map.entry a = some e
  rbnode : x.map.rbnode a = some ⟨0, 0, 0⟩

/-- A thread in call `c` at place `p`. -/
structure At (x : Locked τ) (T : BitVec 32 → RBTree Addr) (c : Call) (p : Place) : Prop where
  proper : c.Proper
  node : p.Open → ∀ malloc domain len ipv4, c = .insert malloc domain len ipv4 →
    x.Private malloc (Hashmap.newEntry domain len ipv4)
  on : x.On (T c.bucket) c p

/-- No two threads have one node. -/
def Apart (pcs : τ → Pc) : Prop := ∀ t u a, a ∈ (pcs t).node → a ∈ (pcs u).node → t = u

structure Sound (x : Locked τ) (T : BitVec 32 → RBTree Addr) : Prop where
  after : Hashmap.After x.committed x.published T
  first : Hashmap.First x.committed x.published T
  proper : Proper x.committed
  given : mallocs x.committed ⊆ mallocs (calledIn x.log)
  guards : ∀ h, (x.lck h).Guards fun t => (x.pcs t).holds h
  place : ∀ t c p, x.pcs t = .inside c p → x.At T c p
  apart : Apart x.pcs

variable {x x' : Locked τ} {T T' : BitVec 32 → RBTree Addr} {t u : τ} {c d : Call} {p q : Place}

theorem published_entry {a : Addr} (h : a ∈ mallocs x.committed) : x.published.entry a = x.map.entry a := if_pos h

theorem published_entry_of_not_mem {a : Addr} (h : a ∉ mallocs x.committed) : x.published.entry a = none := if_neg h

theorem published_congr (hmap : x'.map = x.map) (hcommitted : mallocs x'.committed = mallocs x.committed) :
    x'.published = x.published := by
  have hentry : x'.published.entry = x.published.entry := by
    funext a
    by_cases ha : a ∈ mallocs x.committed
    · rw [published_entry ha, published_entry (hcommitted ▸ ha), hmap]
    · rw [published_entry_of_not_mem ha, published_entry_of_not_mem (hcommitted ▸ ha)]
  calc x'.published = ⟨x'.map.array, x'.map.rbnode, x'.published.entry⟩ := rfl
    _ = x.published := by rw [hmap, hentry]; rfl

theorem side_congr {S : RBTree Addr} (hkey : ∀ a ∈ S.toList, x'.published.key a = x.published.key a) (c : Call) :
    ∀ a ∈ S.toList, x.side c a = x'.side c a := by
  intro a ha
  rw [side, side, sideOf, sideOf, hkey a ha]

/-- The tree and its keys are all that counts for a thread on its way down. -/
theorem On.congr {S : RBTree Addr} (hkey : ∀ a ∈ S.toList, x'.published.key a = x.published.key a) (h : x.On S c p) :
    x'.On S c p := by
  have hside := side_congr hkey c
  have hsub : ∀ {sub : RBTree Addr} {Q : Path Addr}, plug sub Q = S → ∀ a ∈ sub.toList, x.side c a = x'.side c a := by
    rintro sub Q rfl a ha
    exact hside a ((toList_plug_perm ..).mem_iff.mpr (List.mem_append_left _ ha))
  cases c with
  | insert =>
      cases p with
      | descend tmp parent =>
          obtain ⟨sub, Q, hplug, htmp, hparent, hdescend⟩ := h
          refine ⟨sub, Q, hplug, htmp, hparent, ?_⟩
          rwa [← descend_congr hside, ← descend_congr (hsub hplug)]
      | link tmp parent =>
          obtain ⟨Q, hdescend, htmp, hparent⟩ := h
          exact ⟨Q, (descend_congr hside []).symm.trans hdescend, htmp, hparent⟩
      | _ => exact h
  | search =>
      cases p with
      | compare tmp =>
          obtain ⟨sub, Q, hplug, htmp, hfind⟩ := h
          refine ⟨sub, Q, hplug, htmp, ?_⟩
          rwa [← find_congr hside, ← find_congr (hsub hplug)]
      | _ => exact h

theorem Apart.update [DecidableEq τ] {pcs : τ → Pc} {pc : Pc} (h : Apart pcs)
    (hnode : ∀ a ∈ pc.node, a ∈ (pcs t).node ∨ ∀ u, a ∉ (pcs u).node) : Apart (Function.update pcs t pc) := by
  have hother : ∀ u a, u ≠ t → a ∈ (pcs u).node → a ∉ pc.node := by
    intro u a hu ha hpc
    obtain hat | hno := hnode a hpc
    · exact hu (h u t a ha hat)
    · exact hno u ha
  intro u v a hu hv
  by_cases hut : u = t <;> by_cases hvt : v = t
  · rw [hut, hvt]
  · subst hut
    rw [Function.update_self] at hu
    rw [Function.update_of_ne hvt] at hv
    exact absurd hu (hother v a hvt hv)
  · subst hvt
    rw [Function.update_of_ne hut] at hu
    rw [Function.update_self] at hv
    exact absurd hv (hother u a hut hu)
  · rw [Function.update_of_ne hut] at hu
    rw [Function.update_of_ne hvt] at hv
    exact h u v a hu hv

theorem Pc.node_subset (hopen : q.Open → p.Open) : ∀ a ∈ (Pc.inside c q).node, a ∈ (Pc.inside c p).node := by
  intro a ha
  simp only [Pc.node] at ha ⊢
  split at ha
  next hq => rwa [if_pos (hopen hq)]
  · cases ha

/-- A thread is not disturbed by what leaves its tree and its node alone. -/
theorem At.keep (h : x.At T c p) (htree : p.Locks → T' c.bucket = T c.bucket)
    (hkey : ∀ a ∈ (T c.bucket).toList, x'.published.key a = x.published.key a)
    (hnode : ∀ a ∈ (Pc.inside c p).node, ∀ e, x.Private a e → x'.Private a e) : x'.At T' c p where
  proper := h.proper
  node hopen malloc domain len ipv4 hc := by
    apply hnode malloc _ _ (h.node hopen malloc domain len ipv4 hc)
    have hproper := h.proper
    subst hc
    rw [Pc.node, if_pos hopen, Call.malloc?, if_neg hproper.1]
    rfl
  on := by
    have hon := On.congr hkey h.on
    by_cases hlocks : p.Locks
    · rw [htree hlocks]
      exact hon
    · cases p <;> first | exact absurd trivial hlocks | (cases c <;> trivial)

/-- A step that only moves a thread, and perhaps takes or gives back a lock. -/
theorem Sound.moved [DecidableEq τ] (hs : x.Sound T) (hpc : x.pcs t = .inside c p) (hopen : q.Open → p.Open)
    (hon : x.On (T c.bucket) c q) {lck : BitVec 32 → RwLock τ}
    (hguards : ∀ h, (lck h).Guards fun u => (Function.update x.pcs t (.inside c q) u).holds h) :
    ({ x with lck := lck }.goto t c q).Sound T where
  after := hs.after
  first := hs.first
  proper := hs.proper
  given := hs.given
  guards := hguards
  place u d r hu := by
    by_cases hut : u = t
    · subst hut
      have hat := hs.place u c p hpc
      simp only [goto, Function.update_self, Pc.inside.injEq] at hu
      obtain ⟨rfl, rfl⟩ := hu
      refine ⟨hat.proper, fun hq malloc domain len ipv4 hc => ?_, hon⟩
      have hnode := hat.node (hopen hq) malloc domain len ipv4 hc
      exact ⟨hnode.undecided, hnode.given, hnode.entry, hnode.rbnode⟩
    · simp only [goto, Function.update_of_ne hut] at hu
      exact (hs.place u d r hu).keep (fun _ => rfl) (fun _ _ => rfl) fun _ _ _ h =>
        ⟨h.undecided, h.given, h.entry, h.rbnode⟩
  apart := hs.apart.update fun a ha => Or.inl (hpc ▸ Pc.node_subset hopen a ha)

/-- The lock of one bucket is all that a thread holds. -/
theorem holds_update [DecidableEq τ] (pcs : τ → Pc) (t : τ) (pc : Pc) (h : BitVec 32) :
    (fun u => (Function.update pcs t pc u).holds h) = Function.update (fun u => (pcs u).holds h) t (pc.holds h) := by
  funext u
  by_cases hut : u = t
  · subst hut
    rw [Function.update_self, Function.update_self]
  · rw [Function.update_of_ne hut, Function.update_of_ne hut]

theorem Sound.guards_goto [DecidableEq τ] (hs : x.Sound T) (hpc : x.pcs t = .inside c p) (hlocks : q.Locks ↔ p.Locks)
    (h : BitVec 32) : (x.lck h).Guards fun u => (Function.update x.pcs t (.inside c q) u).holds h := by
  have hsame : (Pc.inside c q).holds h = (x.pcs t).holds h := by simp only [hpc, Pc.holds, hlocks]
  rw [holds_update, hsame]
  exact (Function.update_eq_self t fun u => (x.pcs u).holds h).symm ▸ hs.guards h

theorem Sound.lock [DecidableEq τ] (hs : x.Sound T) (hpc : x.pcs t = .inside c .lock) {l : RwLock τ}
    (hlock : (x.lck c.bucket).lock c.mode t = some l) (hq : q.Locks) (hon : x.On (T c.bucket) c q) :
    ({ x with lck := Function.update x.lck c.bucket l }.goto t c q).Sound T := by
  apply hs.moved hpc (fun _ => trivial) hon
  intro h
  have hfree : ∀ h, (x.pcs t).holds h = none := fun h => by simp [hpc, Pc.holds, Place.Locks]
  rw [holds_update]
  by_cases hh : h = c.bucket
  · subst hh
    have hmode : (Pc.inside c q).holds c.bucket = some c.mode := by simp [Pc.holds, hq]
    rw [Function.update_self, hmode]
    exact (hs.guards c.bucket).lock (hfree c.bucket) hlock
  · have hnone : (Pc.inside c q).holds h = (x.pcs t).holds h := by
      rw [hfree, Pc.holds, if_neg fun hand => hh hand.2.symm]
    rw [Function.update_of_ne hh, hnone]
    exact (Function.update_eq_self t fun u => (x.pcs u).holds h).symm ▸ hs.guards h

theorem Sound.unlock [DecidableEq τ] (hs : x.Sound T) {a : Answer} (hpc : x.pcs t = .inside c (.unlock a)) :
    ∃ l, (x.lck c.bucket).unlock t = some l ∧
      ({ x with lck := Function.update x.lck c.bucket l }.goto t c (.leave a)).Sound T := by
  have hheld : (x.pcs t).holds c.bucket = some c.mode := by simp [hpc, Pc.holds, Place.Locks]
  obtain ⟨l, hunlock, hguards⟩ := (hs.guards c.bucket).unlock hheld
  refine ⟨l, hunlock, hs.moved (q := .leave a) hpc id (by cases c <;> trivial) fun h => ?_⟩
  rw [holds_update]
  by_cases hh : h = c.bucket
  · subst hh
    have hnone : (Pc.inside c (.leave a)).holds c.bucket = none := by simp [Pc.holds, Place.Locks]
    rw [Function.update_self, hnone]
    exact hguards
  · have hnone : (Pc.inside c (.leave a)).holds h = (x.pcs t).holds h := by
      simp [hpc, Pc.holds, Place.Locks, Ne.symm hh]
    rw [Function.update_of_ne hh, hnone]
    exact (Function.update_eq_self t fun u => (x.pcs u).holds h).symm ▸ hs.guards h

/-! ### Going down -/

theorem Sound.focus (hs : x.Sound T) {h : BitVec 32} {sub : RBTree Addr} {Q : Path Addr} (hplug : plug sub Q = T h) :
    Focus (T h).toList x.map.rbnode (x.map.bucket h) sub Q := by
  apply Focus.ofRoot
  rw [hplug]
  exact (hs.after.holds.bucket h).focus

theorem entry_of_published {a : Addr} {e : Entry} (h : x.published.entry a = some e) : x.map.entry a = some e :=
  (Option.ite_none_right_eq_some.mp h).2

/-- The entry at the root of a subtree, and the side its comparison chooses. -/
theorem Sound.compares (hs : x.Sound T) {h : BitVec 32} {k : Color} {l r : RBTree Addr} {a : Addr} {Q : Path Addr}
    (hplug : plug (.node k l a r) Q = T h) :
    a ≠ 0 ∧ a ∈ (T h).toList ∧ ∃ e, x.map.entry a = some e ∧ x.published.entry a = some e ∧ ∀ p : Chars,
      sideOf x.published.key (signed (text p)) a = if insideStrcmp (some p) (some e.domain) > 0 then some .left
        else if insideStrcmp (some p) (some e.domain) < 0 then some .right else none := by
  have hbucket := hs.after.holds.bucket h
  have ha : a ∈ (T h).toList := by
    rw [← hplug, (toList_plug_perm ..).mem_iff]
    simp [RBTree.toList]
  obtain ⟨e, he, hterm⟩ := hbucket.stored a ha
  exact ⟨hbucket.usable.ne_zero a ha, ha, e, entry_of_published he, he, fun p => Hashmap.sideOf_key he hterm⟩

theorem Sound.descend [DecidableEq τ] (hs : x.Sound T) {new : Addr} {domain : Chars} {len : Nat} {ipv4 : Ipv4}
    {tmp : Link} {parent : Addr} (hpc : x.pcs t = .inside (.insert new domain len ipv4) (.descend tmp parent)) :
    ∃ y, x.descend t (.insert new domain len ipv4) new tmp parent = some y ∧
      ((∃ q, q.Open ∧ q.Locks ∧ y = x.goto t (.insert new domain len ipv4) q ∧
          x.On (T (insideHash domain len)) (.insert new domain len ipv4) q) ∨
        y = x.decide t (.insert new domain len ipv4) (.inserted (-1)) ∧
          (find (x.side (.insert new domain len ipv4)) (T (insideHash domain len))).isSome) := by
  have hat := hs.place t _ _ hpc
  obtain ⟨sub, Q, hplug, rfl, rfl, hdescend⟩ := hat.on
  have hplug : plug sub Q = T (insideHash domain len) := hplug
  have hdomain : IsDomain domain len := hat.proper.2.2
  have hnew := (hat.node trivial _ _ _ _ rfl).entry
  have htext : text (Hashmap.newEntry domain len ipv4).domain = text domain :=
    (text_strncpy hdomain.lt).trans hdomain.cstring
  have hload : (linkOf Q).load (x.map.bucket (Call.insert new domain len ipv4).bucket) = some (rootOf sub) :=
    (hs.focus hplug).load_linkOf
  simp only [Locked.descend, hload, Option.bind_eq_bind, Option.bind_some]
  cases sub with
  | leaf => exact ⟨_, if_pos rfl, Or.inl ⟨.link (linkOf Q) (parentOf Q), trivial, trivial, rfl, Q, hdescend, rfl, rfl⟩⟩
  | node k l a r =>
      obtain ⟨hzero, ha, e, he, -, hside⟩ := hs.compares hplug
      have hside := hside (Hashmap.newEntry domain len ipv4).domain
      rw [htext] at hside
      rw [rootOf_node, if_neg hzero]
      simp only [hnew, he, Option.bind_some]
      have hsame : x.side (.insert new domain len ipv4) a = _ := hside
      split_ifs at hsame ⊢ with hpos hneg
      · refine ⟨_, rfl, Or.inl ⟨.descend (.child a .left) a, trivial, trivial, rfl, l, ⟨.left, k, a, r⟩ :: Q, hplug, rfl,
          rfl, hdescend.trans ?_⟩⟩
        rw [RedBlack.descend, hsame]
      · refine ⟨_, rfl, Or.inl ⟨.descend (.child a .right) a, trivial, trivial, rfl, r, ⟨.right, k, a, l⟩ :: Q, hplug, rfl,
          rfl, hdescend.trans ?_⟩⟩
        rw [RedBlack.descend, hsame]
      · refine ⟨_, rfl, Or.inr ⟨rfl, (descend_eq_none_iff _ []).mp (hdescend.trans ?_)⟩⟩
        rw [RedBlack.descend, hsame]

theorem Sound.compare [DecidableEq τ] (hs : x.Sound T) {domain : Chars} {len : Nat} {tmp : Addr}
    (hpc : x.pcs t = .inside (.search domain len) (.compare tmp)) :
    ∃ y, x.compare t (.search domain len) domain tmp = some y ∧
      ((∃ q, q.Open ∧ q.Locks ∧ y = x.goto t (.search domain len) q ∧
          x.On (T (insideHash domain len)) (.search domain len) q) ∨
        y = x.decide t (.search domain len)
          (.found ((find (x.side (.search domain len)) (T (insideHash domain len))).elim 0 x.published.ipv4At))) := by
  have hat := hs.place t _ _ hpc
  obtain ⟨sub, Q, hplug, rfl, hfind⟩ := hat.on
  have hplug : plug sub Q = T (insideHash domain len) := hplug
  have hfind : find (x.side (.search domain len)) (T (insideHash domain len)) = _ := hfind
  rw [hfind]
  cases sub with
  | leaf => exact ⟨_, if_pos rfl, Or.inr rfl⟩
  | node k l a r =>
      obtain ⟨hzero, ha, e, he, he', hside⟩ := hs.compares hplug
      have hsame : x.side (.search domain len) a = _ := hside domain
      have hnode : x.map.rbnode a = _ := (hs.focus hplug).here.1
      simp only [Locked.compare, rootOf_node, if_neg hzero, he, hnode, Option.bind_eq_bind, Option.bind_some,
        find]
      split_ifs at hsame ⊢ with hpos hneg
      · refine ⟨_, rfl, Or.inl ⟨.compare (rootOf l), trivial, trivial, rfl, l, ⟨.left, k, a, r⟩ :: Q, hplug, rfl, ?_⟩⟩
        rw [hfind, find, hsame]
      · refine ⟨_, rfl, Or.inl ⟨.compare (rootOf r), trivial, trivial, rfl, r, ⟨.right, k, a, l⟩ :: Q, hplug, rfl, ?_⟩⟩
        rw [hfind, find, hsame]
      · refine ⟨_, rfl, Or.inr ?_⟩
        rw [hsame]
        simp [Hashmap.ipv4At, he']

end Locked

end SimpDserver.NetHashmap
