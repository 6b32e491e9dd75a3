import SimpDserver.Hashmap.RbShape
import SimpDserver.Hashmap.Core

/-!
# The buckets

What the array and the heap hold between two calls: in every bucket a balanced search tree under the
order of `inside_strcmp`, no two of them sharing an entry. An insertion finds the string in its bucket,
or hangs it where the descent ends and repairs the tree; a search follows the same descent.
-/

namespace SimpDserver.NetHashmap

open RedBlack

namespace Hashmap

/-- The string stored at an address, in the order of the comparison. -/
def key (s : Hashmap) (a : Addr) : List Int := (s.entry a).elim [] fun e => signed (text e.domain)

def ipv4At (s : Hashmap) (a : Addr) : Ipv4 := (s.entry a).elim 0 Entry.ipv4

/-- An entry whose string ends within its array. -/
def Stored (s : Hashmap) (a : Addr) : Prop := ∃ e, s.entry a = some e ∧ Terminated domainLen e.domain

/-- The tree in one bucket. -/
structure Bucket (s : Hashmap) (h : BitVec 32) (T : RBTree Addr) : Prop where
  repr : Repr s.rbnode 0 T
  root : s.array h = rootOf T
  usable : Usable T.toList
  balanced : ∃ n, Balanced T .black n
  sorted : Sorted s.key T.toList
  stored : ∀ a ∈ T.toList, s.Stored a

/-- The trees in all buckets. -/
structure Holds (s : Hashmap) (T : BitVec 32 → RBTree Addr) : Prop where
  bucket : ∀ h, s.Bucket h (T h)
  disjoint : ∀ h h', h ≠ h' → List.Disjoint (T h).toList (T h').toList

theorem Bucket.focus {s : Hashmap} {h : BitVec 32} {T : RBTree Addr} (hT : s.Bucket h T) :
    Focus T.toList s.rbnode (s.bucket h) T [] :=
  ⟨hT.repr, hT.root, rfl, fun _ _ => rfl⟩

/-- A bucket reads nothing but its own entries. -/
theorem Bucket.congr {s s' : Hashmap} {h : BitVec 32} {T : RBTree Addr} (hT : s.Bucket h T)
    (harray : s'.array h = s.array h) (hrb : ∀ a ∈ T.toList, s'.rbnode a = s.rbnode a)
    (hentry : ∀ a ∈ T.toList, s'.entry a = s.entry a) : s'.Bucket h T where
  repr := hT.repr.congr hrb
  root := harray.trans hT.root
  usable := hT.usable
  balanced := hT.balanced
  sorted := hT.sorted.imp_of_mem fun ha hb hab => by
    simpa only [key, hentry _ ha, hentry _ hb] using hab
  stored a ha := by
    obtain ⟨e, he, hterm⟩ := hT.stored a ha
    exact ⟨e, (hentry a ha).trans he, hterm⟩

theorem init_holds : init.Holds fun _ => .leaf where
  bucket _ :=
    { repr := trivial
      root := rfl
      usable := ⟨List.nodup_nil, by simp [RBTree.toList], by simp [RBTree.toList]⟩
      balanced := ⟨0, .leaf⟩
      sorted := List.Pairwise.nil
      stored := by simp [RBTree.toList] }
  disjoint _ _ _ := by simp [RBTree.toList]

/-! ### Descents -/

variable {s : Hashmap} {h : BitVec 32}

/-- The two tests at an entry choose the side of the search tree. -/
theorem sideOf_key {a : Addr} {e : Entry} {p : Chars} (he : s.entry a = some e)
    (hterm : Terminated domainLen e.domain) :
    sideOf s.key (signed (text p)) a =
      if insideStrcmp (some p) (some e.domain) > 0 then some .left
      else if insideStrcmp (some p) (some e.domain) < 0 then some .right else none := by
  have hkey : s.key a = signed (text e.domain) := by rw [key, he, Option.elim_some]
  rcases lt_trichotomy (signed (text p)) (signed (text e.domain)) with hlt | heq | hgt
  · rw [sideOf_eq_right.mpr (hkey ▸ hlt), if_neg (by rw [insideStrcmp_pos hterm]; exact hlt.not_gt),
      if_pos ((insideStrcmp_neg hterm).mpr hlt)]
  · rw [sideOf_eq_none.mpr (hkey.trans heq.symm), if_neg (by rw [insideStrcmp_pos hterm]; exact heq.not_gt),
      if_neg (by rw [insideStrcmp_neg hterm]; exact heq.not_lt)]
  · rw [sideOf_eq_left.mpr (hkey ▸ hgt), if_pos ((insideStrcmp_pos hterm).mpr hgt)]

/-- The insertion's descent in memory is the descent of the tree. -/
theorem insertDescent_eq {A : List Addr} {m₀ : Addr → Option RbNode} (new : Entry) {T : RBTree Addr}
    {P : Path Addr} {fuel : Nat} (hA : Usable A) (hT : Focus A m₀ (s.bucket h) T P)
    (hstored : ∀ a ∈ T.toList, s.Stored a) (hfuel : T.height < fuel) :
    s.insertDescent h new fuel (linkOf P) (parentOf P) =
      some ((descend (sideOf s.key (signed (text new.domain))) T P).map fun Q => (linkOf Q, parentOf Q)) := by
  induction T generalizing P fuel with
  | leaf =>
      cases fuel with
      | zero => omega
      | succ fuel => simp [insertDescent, hT.load_linkOf, rootOf, descend]
  | node c l x r ihl ihr =>
      cases fuel with
      | zero => omega
      | succ fuel =>
          rw [RBTree.height] at hfuel
          simp only [RBTree.toList, List.mem_append, List.mem_cons] at hstored
          have hx0 : x ≠ 0 := hA.ne_zero x (hT.mem.mpr (Or.inl (by simp [RBTree.toList])))
          obtain ⟨e, he, hterm⟩ := hstored x (Or.inr (Or.inl rfl))
          have hleft := @ihl (⟨.left, c, x, r⟩ :: P) fuel (focus_branch.mp hT)
            (fun a ha => hstored a (Or.inl ha)) (by omega)
          have hright := @ihr (⟨.right, c, x, l⟩ :: P) fuel
            ((focus_branch (d := .right)).mp hT) (fun a ha => hstored a (Or.inr (Or.inr ha))) (by omega)
          simp only [insertDescent, hT.load_linkOf, rootOf_node, Option.bind_eq_bind, Option.bind_some, hx0, if_false,
            he, descend, sideOf_key he hterm]
          split_ifs with hpos hneg
          · exact hleft
          · exact hright
          · rfl

theorem searchLoop_eq {T : RBTree Addr} {p : Addr} {domain : Chars} {fuel : Nat}
    (hrepr : Repr s.rbnode p T) (hzero : ∀ a ∈ T.toList, a ≠ 0) (hstored : ∀ a ∈ T.toList, s.Stored a)
    (hfuel : T.height < fuel) :
    s.searchLoop domain fuel (rootOf T) =
      some (spine (sideOf s.key (signed (text domain))) T,
        ((find (sideOf s.key (signed (text domain))) T).elim 0 s.ipv4At)) := by
  induction T generalizing p fuel with
  | leaf =>
      cases fuel with
      | zero => omega
      | succ fuel => simp [searchLoop, rootOf, spine, find]
  | node c l x r ihl ihr =>
      cases fuel with
      | zero => omega
      | succ fuel =>
          rw [RBTree.height] at hfuel
          simp only [RBTree.toList, List.mem_append, List.mem_cons] at hstored hzero
          obtain ⟨e, he, hterm⟩ := hstored x (Or.inr (Or.inl rfl))
          have hleft := @ihl _ fuel hrepr.2.1 (fun a ha => hzero a (Or.inl ha))
            (fun a ha => hstored a (Or.inl ha)) (by omega)
          have hright := @ihr _ fuel hrepr.2.2 (fun a ha => hzero a (Or.inr (Or.inr ha)))
            (fun a ha => hstored a (Or.inr (Or.inr ha))) (by omega)
          simp only [searchLoop, rootOf_node, hzero x (Or.inr (Or.inl rfl)), if_false, he, hrepr.1,
            Option.bind_eq_bind, Option.bind_some, spine, find, sideOf_key he hterm]
          split_ifs with hpos hneg
          · simp only [RbNode.mk', hleft, Option.bind_some, Option.pure_def]
          · simp only [RbNode.mk', hright, Option.bind_some, Option.pure_def]
          · simp [ipv4At, he]

/-! ### One call -/

/-- A search in a bucket compares along one descent and returns what is stored where it stops. -/
theorem Bucket.insideSearch {T : RBTree Addr} (hT : s.Bucket h T) {domain : Chars} {fuel : Nat}
    (hfuel : T.toList.length < fuel) :
    insideSearch fuel s h domain =
      some (spine (sideOf s.key (signed (text domain))) T,
        ((find (sideOf s.key (signed (text domain))) T).elim 0 s.ipv4At)) := by
  rw [Hashmap.insideSearch, hT.root]
  exact searchLoop_eq hT.repr hT.usable.ne_zero hT.stored
    ((height_le_length T).trans_lt hfuel)

/-- Linking a node in where a descent ends, and repairing the tree. -/
theorem Bucket.link_repair {T : RBTree Addr} (hT : s.Bucket h T) {side : Addr → Option Side} {Q : Path Addr}
    {node : Addr} {fuel : Nat} (hQ : descend side T [] = some Q) (hnode : node ∉ T.toList) (hzero : node ≠ 0)
    (haligned : Aligned node) (halloc : (s.rbnode node).isSome) (hfuel : T.toList.length < fuel) :
    ∃ t₁ t₂, rbLinkNode (s.bucket h) node (parentOf Q) (linkOf Q) = some t₁ ∧ rbInsertColor fuel t₁ node = some t₂ ∧
      (plug (.node .red .leaf node .leaf) Q).toList.Perm (node :: T.toList) ∧
      Usable (plug (.node .red .leaf node .leaf) Q).toList ∧
      Focus (plug (.node .red .leaf node .leaf) Q).toList s.rbnode t₂ (fixup (.node .red .leaf node .leaf) Q) [] ∧
      ∃ n, Balanced (fixup (.node .red .leaf node .leaf) Q) .black n := by
  have hplug := plug_descend hQ
  have hperm : (plug (.node .red .leaf node .leaf) Q).toList.Perm (node :: T.toList) := by
    apply (toList_plug_perm ..).trans
    rw [show T = plug .leaf Q from hplug.symm]
    exact (toList_plug_perm ..).symm.cons node
  have hfocus : Focus T.toList s.rbnode (s.bucket h) .leaf Q := by
    apply Focus.ofRoot
    rw [hplug]
    exact hT.focus
  obtain ⟨t₁, ht₁, h₁⟩ := hfocus.rbLinkNode_spec hT.usable hnode halloc
  have husable : Usable (plug (.node .red .leaf node .leaf) Q).toList :=
    (hT.usable.cons hnode hzero haligned).perm hperm.symm
  obtain ⟨n, hn⟩ := hT.balanced
  have hhole : Hole Q .black 0 := (Hole.root n).descend hn hQ
  have hleaf : Balanced (.node .red .leaf node .leaf : RBTree Addr) .red 0 := .red node .leaf .leaf
  have hlength : Q.length < fuel := by
    have hdepth := length_descend_le hQ
    have hheight := height_le_length T
    rw [List.length_nil] at hdepth
    omega
  obtain ⟨t₂, ht₂, h₂⟩ := h₁.rbInsertColor_spec husable hhole hleaf hlength
  exact ⟨t₁, t₂, ht₁, ht₂, hperm, husable, h₂, hhole.fixup hleaf⟩

/-- An address `malloc` may return: nothing is stored there, and it is aligned. -/
structure Fresh (T : BitVec 32 → RBTree Addr) (node : Addr) : Prop where
  unused : ∀ h, node ∉ (T h).toList
  ne_zero : node ≠ 0
  aligned : Aligned node

variable {T : BitVec 32 → RBTree Addr}

theorem Holds.alloc (hT : s.Holds T) {node : Addr} (hnode : Fresh T node) (e : Entry) :
    (s.alloc node e).Holds T where
  bucket h := (hT.bucket h).congr rfl
    (fun _ ha => Function.update_of_ne (ne_of_mem_of_not_mem ha (hnode.unused h)) ..)
    (fun _ ha => Function.update_of_ne (ne_of_mem_of_not_mem ha (hnode.unused h)) ..)
  disjoint := hT.disjoint

/-- One tree gives way to another, which has nothing of the other buckets. -/
theorem Holds.disjoint_update (hT : s.Holds T) {h : BitVec 32} {T' : RBTree Addr}
    (hdisjoint : ∀ h', h' ≠ h → List.Disjoint T'.toList (T h').toList) (h₁ h₂ : BitVec 32) (hne : h₁ ≠ h₂) :
    List.Disjoint (Function.update T h T' h₁).toList (Function.update T h T' h₂).toList := by
  by_cases hh₁ : h₁ = h
  · subst hh₁
    rw [Function.update_self, Function.update_of_ne (Ne.symm hne)]
    exact hdisjoint h₂ (Ne.symm hne)
  · rw [Function.update_of_ne hh₁]
    by_cases hh₂ : h₂ = h
    · subst hh₂
      rw [Function.update_self]
      exact (hdisjoint h₁ hh₁).symm
    · rw [Function.update_of_ne hh₂]
      exact hT.disjoint h₁ h₂ hne

section Insert

variable {node : Addr} {domain : Chars} {len fuel : Nat} (ipv4 : Ipv4)

def newEntry (domain : Chars) (len : Nat) (ipv4 : Ipv4) : Entry :=
  ⟨len, strncpy (fun _ => 0) domain len, ipv4⟩

variable (hT : s.Holds T) (hnode : Fresh T node) (hlen : len < domainLen)
  (hfuel : (T (insideHash domain len)).toList.length < fuel)
include hT hnode hlen hfuel

/-- The descent an insertion makes once its node is filled in. -/
theorem insert_eq :
    s.insert fuel node domain len ipv4 =
      match descend (sideOf (s.alloc node (newEntry domain len ipv4)).key (signed (cstring len domain)))
        (T (insideHash domain len)) [] with
      | none => some (s.alloc node (newEntry domain len ipv4), -1)
      | some Q => (do
          let t ← rbLinkNode ((s.alloc node (newEntry domain len ipv4)).bucket (insideHash domain len)) node
            (parentOf Q) (linkOf Q)
          let t ← rbInsertColor fuel t node
          return ((s.alloc node (newEntry domain len ipv4)).setBucket (insideHash domain len) t, 0)) := by
  have hbucket := (hT.alloc hnode (newEntry domain len ipv4)).bucket (insideHash domain len)
  have hdescent := insertDescent_eq (newEntry domain len ipv4) hbucket.usable hbucket.focus hbucket.stored
    ((height_le_length _).trans_lt hfuel)
  have htext : text (newEntry domain len ipv4).domain = cstring len domain := text_strncpy hlen
  rw [htext] at hdescent
  have hentry : (s.alloc node (newEntry domain len ipv4)).entry node = some (newEntry domain len ipv4) :=
    Function.update_self ..
  rw [insert, if_neg hnode.ne_zero, if_neg (not_le.mpr hlen)]
  change insideInsert fuel (s.alloc node (newEntry domain len ipv4)) (insideHash domain len) node = _
  simp only [linkOf, parentOf] at hdescent
  simp only [insideInsert, hentry, Option.bind_eq_bind, Option.bind_some, hdescent]
  cases descend (sideOf (s.alloc node (newEntry domain len ipv4)).key (signed (cstring len domain)))
    (T (insideHash domain len)) [] <;> rfl

omit hT hnode hlen hfuel in
theorem key_alloc_self (hlen : len < domainLen) :
    (s.alloc node (newEntry domain len ipv4)).key node = signed (cstring len domain) := by
  rw [key, show (s.alloc node _).entry node = some _ from Function.update_self .., Option.elim_some, newEntry,
    text_strncpy hlen]

omit hT hnode hlen hfuel in
theorem key_alloc_of_ne {a : Addr} (e : Entry) (ha : a ≠ node) : (s.alloc node e).key a = s.key a := by
  simp [key, alloc, ha]

/-- An insertion of a string its bucket holds returns -1 and changes nothing but the node it
allocated. -/
theorem insert_old {a : Addr} (ha : a ∈ (T (insideHash domain len)).toList)
    (hkey : s.key a = signed (cstring len domain)) :
    s.insert fuel node domain len ipv4 = some (s.alloc node (newEntry domain len ipv4), -1) := by
  have hbucket := (hT.alloc hnode (newEntry domain len ipv4)).bucket (insideHash domain len)
  have hne : a ≠ node := ne_of_mem_of_not_mem ha (hnode.unused _)
  have hfind := (find_eq_some_iff hbucket.sorted).mpr ⟨ha, (key_alloc_of_ne _ hne).trans hkey⟩
  have hnone := (descend_eq_none_iff (T (insideHash domain len)) []).mpr (Option.isSome_of_eq_some hfind)
  rw [insert_eq ipv4 hT hnode hlen hfuel, hnone]

/-- An insertion of a string its bucket does not hold returns 0 and adds its node to that bucket. -/
theorem insert_new (hkey : ∀ a ∈ (T (insideHash domain len)).toList, s.key a ≠ signed (cstring len domain)) :
    ∃ s' T', s.insert fuel node domain len ipv4 = some (s', 0) ∧
      s'.entry = (s.alloc node (newEntry domain len ipv4)).entry ∧
      s'.Holds (Function.update T (insideHash domain len) T') ∧
      T'.toList.Perm (node :: (T (insideHash domain len)).toList) := by
  have hT₁ := hT.alloc hnode (newEntry domain len ipv4)
  have heq := insert_eq ipv4 hT hnode hlen hfuel
  have hself : (s.alloc node (newEntry domain len ipv4)).key node = signed (cstring len domain) :=
    key_alloc_self ipv4 hlen
  generalize hs₁ : s.alloc node (newEntry domain len ipv4) = s₁ at *
  generalize insideHash domain len = h at *
  have hbucket := hT₁.bucket h
  cases hQ : descend (sideOf s₁.key (signed (cstring len domain))) (T h) [] with
  | none =>
      obtain ⟨a, ha⟩ := Option.isSome_iff_exists.mp ((descend_eq_none_iff _ _).mp hQ)
      obtain ⟨hmem, hkeya⟩ := (find_eq_some_iff hbucket.sorted).mp ha
      have hne : a ≠ node := ne_of_mem_of_not_mem hmem (hnode.unused h)
      rw [← hs₁, key_alloc_of_ne _ hne] at hkeya
      exact absurd hkeya (hkey a hmem)
  | some Q =>
      have halloc : (s₁.rbnode node).isSome := by
        rw [← hs₁]
        simp [alloc]
      obtain ⟨t₁, t₂, ht₁, ht₂, hperm, husable, hfocus, hbalanced⟩ := hbucket.link_repair hQ (hnode.unused h)
        hnode.ne_zero hnode.aligned halloc hfuel
      have hmem : ∀ a, a ∈ (fixup (.node .red .leaf node .leaf) Q).toList ↔ a = node ∨ a ∈ (T h).toList := by
        intro a
        rw [toList_fixup, hperm.mem_iff, List.mem_cons]
      have hdisjoint : ∀ h', h' ≠ h →
          List.Disjoint (fixup (.node .red .leaf node .leaf) Q).toList (T h').toList := by
        intro h' hh a ha ha'
        rcases (hmem a).mp ha with rfl | ha
        · exact hnode.unused h' ha'
        · exact hT.disjoint h' h hh ha' ha
      refine ⟨s₁.setBucket h t₂, fixup (.node .red .leaf node .leaf) Q, ?_, rfl,
        ⟨?_, hT.disjoint_update hdisjoint⟩, by rwa [toList_fixup]⟩
      · rw [heq, hQ]
        simp only [Option.bind_eq_bind, ht₁, Option.bind_some, ht₂]
        rfl
      · intro h'
        by_cases hh : h' = h
        · subst hh
          rw [Function.update_self]
          exact {
            repr := hfocus.here
            root := (Function.update_self ..).trans hfocus.around
            usable := by rwa [toList_fixup]
            balanced := hbalanced
            sorted := by
              rw [toList_fixup]
              exact hbucket.sorted.insert (hself ▸ hQ) .red
            stored := by
              intro a ha
              rcases (hmem a).mp ha with rfl | ha
              · refine ⟨newEntry domain len ipv4, ?_, strncpy_terminated hlen⟩
                rw [← hs₁]
                exact Function.update_self ..
              · exact hbucket.stored a ha }
        · rw [Function.update_of_ne hh]
          refine (hT₁.bucket h').congr (Function.update_of_ne hh ..) (fun a ha => ?_) fun _ _ => rfl
          apply hfocus.outside a
          intro hin
          rw [← toList_fixup] at hin
          exact hdisjoint h' hh hin ha

end Insert

end Hashmap

end SimpDserver.NetHashmap
