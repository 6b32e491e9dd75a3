import SimpDserver.Hashmap.Buckets

/-!
# Histories of calls

What a sequence of calls leaves behind: every entry of every tree stems from one insertion of the
sequence, at the address `malloc` returned for it and in the bucket that insertion hashed to.
-/

namespace SimpDserver.NetHashmap

open RedBlack

/-- The block a call gets from `malloc`, if any. -/
def Call.malloc? : Call → Option Addr
  | .insert malloc _ _ _ => if malloc = 0 then none else some malloc
  | .search _ _ => none

def mallocs (calls : List Call) : List Addr := calls.filterMap Call.malloc?

/-- What the callers promise of one call: the domain fits with its terminator, and `malloc` returns
null or an aligned block. -/
def Call.Fits : Call → Prop
  | .insert malloc _ len _ => Aligned malloc ∧ len < domainLen
  | .search _ _ => True

/-- Calls in which no block is returned by `malloc` twice. -/
structure Admissible (calls : List Call) : Prop where
  fits : ∀ c ∈ calls, c.Fits
  nodup : (mallocs calls).Nodup

theorem mallocs_concat (calls : List Call) (c : Call) :
    mallocs (calls ++ [c]) = mallocs calls ++ c.malloc?.toList := by
  rw [mallocs, List.filterMap_append]
  cases h : c.malloc? <;> simp [mallocs, h]

theorem mem_malloc? {a malloc : Addr} {domain : Chars} {len : Nat} {ipv4 : Ipv4} (hzero : malloc ≠ 0) :
    a ∈ (Call.insert malloc domain len ipv4).malloc?.toList ↔ a = malloc := by
  rw [Call.malloc?, if_neg hzero, Option.toList_some, List.mem_singleton]

theorem length_mallocs_le (calls : List Call) : (mallocs calls).length ≤ calls.length :=
  List.length_filterMap_le ..

namespace Hashmap

/-- The entry at `a` is the one an insertion among the calls put into bucket `h`. -/
def Inserted (s : Hashmap) (calls : List Call) (h : BitVec 32) (a : Addr) : Prop :=
  ∃ domain len ipv4, .insert a domain len ipv4 ∈ calls ∧ len < domainLen ∧ insideHash domain len = h ∧
    s.entry a = some (newEntry domain len ipv4)

/-- The state and its trees after a sequence of calls. -/
structure After (calls : List Call) (s : Hashmap) (T : BitVec 32 → RBTree Addr) : Prop where
  holds : s.Holds T
  inserted : ∀ h, ∀ a ∈ (T h).toList, s.Inserted calls h a
  unallocated : ∀ a, a ∉ mallocs calls → s.entry a = none

variable {calls : List Call} {s : Hashmap} {T : BitVec 32 → RBTree Addr} {fuel : Nat}

theorem After.init : After [] init fun _ => .leaf where
  holds := init_holds
  inserted _ _ ha := by simp [RBTree.toList] at ha
  unallocated _ _ := rfl

theorem After.mem_mallocs (hs : After calls s T) {h : BitVec 32} {a : Addr} (ha : a ∈ (T h).toList) :
    a ∈ mallocs calls := by
  by_contra hmem
  obtain ⟨_, _, _, -, -, -, hentry⟩ := hs.inserted h a ha
  simp [hs.unallocated a hmem] at hentry

theorem After.length_le (hs : After calls s T) (h : BitVec 32) : (T h).toList.length ≤ calls.length :=
  ((hs.holds.bucket h).usable.nodup.subperm fun _ ha => hs.mem_mallocs ha).length_le.trans
    (length_mallocs_le calls)

/-- A call that changes neither a tree nor an entry that has been allocated. -/
theorem After.concat (hs : After calls s T) (c : Call) {s' : Hashmap} (hholds : s'.Holds T)
    (hentry : ∀ a, a ∉ c.malloc?.toList → s'.entry a = s.entry a)
    (hfresh : ∀ a ∈ c.malloc?.toList, a ∉ mallocs calls) : After (calls ++ [c]) s' T where
  holds := hholds
  inserted h a ha := by
    obtain ⟨domain, len, ipv4, hmem, hlen, hhash, he⟩ := hs.inserted h a ha
    exact ⟨domain, len, ipv4, List.mem_append_left _ hmem, hlen, hhash,
      (hentry a fun hac => hfresh a hac (hs.mem_mallocs ha)).trans he⟩
  unallocated a ha := by
    rw [mallocs_concat, List.mem_append, not_or] at ha
    rw [hentry a ha.2, hs.unallocated a ha.1]

section Insert

variable {node : Addr} {domain : Chars} {len : Nat} (ipv4 : Ipv4)

theorem After.fresh (hs : After calls s T) (hzero : node ≠ 0) (haligned : Aligned node)
    (hfresh : node ∉ mallocs calls) : Fresh T node :=
  ⟨fun _ ha => hfresh (hs.mem_mallocs ha), hzero, haligned⟩

variable (hs : After calls s T) (hfuel : calls.length < fuel) (hlen : len < domainLen) (hzero : node ≠ 0)
  (haligned : Aligned node) (hfresh : node ∉ mallocs calls)
include hs hfuel hlen hzero haligned hfresh

theorem After.insert_old {a : Addr} (ha : a ∈ (T (insideHash domain len)).toList)
    (hkey : s.key a = signed (cstring len domain)) :
    s.insert fuel node domain len ipv4 = some (s.alloc node (newEntry domain len ipv4), -1) ∧
      After (calls ++ [.insert node domain len ipv4]) (s.alloc node (newEntry domain len ipv4)) T := by
  have hnode := hs.fresh hzero haligned hfresh
  refine ⟨Hashmap.insert_old ipv4 hs.holds hnode hlen ((hs.length_le _).trans_lt hfuel) ha hkey, ?_⟩
  apply hs.concat _ (hs.holds.alloc hnode _)
  · intro b hb
    exact Function.update_of_ne (fun hbn => hb ((mem_malloc? hzero).mpr hbn)) ..
  · intro b hb
    rwa [(mem_malloc? hzero).mp hb]

theorem After.insert_new
    (hkey : ∀ a ∈ (T (insideHash domain len)).toList, s.key a ≠ signed (cstring len domain)) :
    ∃ s' T', s.insert fuel node domain len ipv4 = some (s', 0) ∧
      s'.entry = (s.alloc node (newEntry domain len ipv4)).entry ∧
      After (calls ++ [.insert node domain len ipv4]) s' (Function.update T (insideHash domain len) T') ∧
      T'.toList.Perm (node :: (T (insideHash domain len)).toList) := by
  have hnode := hs.fresh hzero haligned hfresh
  obtain ⟨s', T', hinsert, hentry, hholds, hperm⟩ :=
    Hashmap.insert_new ipv4 hs.holds hnode hlen ((hs.length_le _).trans_lt hfuel) hkey
  refine ⟨s', T', hinsert, hentry, ⟨hholds, ?_, ?_⟩, hperm⟩
  · have hold : ∀ h, ∀ a ∈ (T h).toList, s'.Inserted (calls ++ [.insert node domain len ipv4]) h a := by
      intro h a ha
      obtain ⟨d, l, ip, hmem, hl, hhash, he⟩ := hs.inserted h a ha
      refine ⟨d, l, ip, List.mem_append_left _ hmem, hl, hhash, ?_⟩
      rw [hentry]
      exact (Function.update_of_ne (ne_of_mem_of_not_mem ha (hnode.unused h)) ..).trans he
    intro h a ha
    by_cases hh : h = insideHash domain len
    · subst hh
      rw [Function.update_self, hperm.mem_iff, List.mem_cons] at ha
      rcases ha with rfl | ha
      · refine ⟨domain, len, ipv4, by simp, hlen, rfl, ?_⟩
        rw [hentry]
        exact Function.update_self ..
      · exact hold _ a ha
    · rw [Function.update_of_ne hh] at ha
      exact hold h a ha
  · intro a ha
    rw [mallocs_concat, List.mem_append, not_or, mem_malloc? hzero] at ha
    rw [hentry]
    exact (Function.update_of_ne ha.2 ..).trans (hs.unallocated a ha.1)

/-- An insertion that gets a block: what was there stays, and the domain has an entry, an old one or the new one. -/
theorem After.insert_spec :
    ∃ s' T' ret, s.insert fuel node domain len ipv4 = some (s', ret) ∧
      After (calls ++ [.insert node domain len ipv4]) s' T' ∧
      (∀ h, ∀ a ∈ (T h).toList, a ∈ (T' h).toList ∧ s'.entry a = s.entry a) ∧
      (((∃ a ∈ (T (insideHash domain len)).toList, s.key a = signed (cstring len domain)) ∧ ret = -1 ∧ T' = T ∧
          s' = s.alloc node (newEntry domain len ipv4)) ∨
        ((∀ a ∈ (T (insideHash domain len)).toList, s.key a ≠ signed (cstring len domain)) ∧ ret = 0 ∧
          node ∈ (T' (insideHash domain len)).toList ∧ s'.entry node = some (newEntry domain len ipv4) ∧
          ∀ h, ∀ a ∈ (T' h).toList, a = node ∨ a ∈ (T h).toList)) := by
  have hkept : ∀ h, ∀ a ∈ (T h).toList, (s.alloc node (newEntry domain len ipv4)).entry a = s.entry a := fun h a ha =>
    Function.update_of_ne (ne_of_mem_of_not_mem ha ((hs.fresh hzero haligned hfresh).unused h)) ..
  by_cases hold : ∃ a ∈ (T (insideHash domain len)).toList, s.key a = signed (cstring len domain)
  · obtain ⟨a, ha, hkey⟩ := hold
    obtain ⟨hinsert, hafter⟩ := hs.insert_old ipv4 hfuel hlen hzero haligned hfresh ha hkey
    exact ⟨_, T, -1, hinsert, hafter, fun h b hb => ⟨hb, hkept h b hb⟩, Or.inl ⟨⟨a, ha, hkey⟩, rfl, rfl, rfl⟩⟩
  · push Not at hold
    obtain ⟨s', T', hinsert, hentry, hafter, hperm⟩ := hs.insert_new ipv4 hfuel hlen hzero haligned hfresh hold
    have hmem : ∀ h a, a ∈ (Function.update T (insideHash domain len) T' h).toList ↔
        (h = insideHash domain len ∧ a = node) ∨ a ∈ (T h).toList := by
      intro h a
      by_cases hh : h = insideHash domain len
      · subst hh
        rw [Function.update_self, hperm.mem_iff, List.mem_cons, eq_self, true_and]
      · rw [Function.update_of_ne hh]
        exact ⟨Or.inr, fun ha => ha.resolve_left fun hnode => hh hnode.1⟩
    refine ⟨s', _, 0, hinsert, hafter, fun h a ha => ⟨(hmem h a).mpr (Or.inr ha), ?_⟩,
      Or.inr ⟨hold, rfl, (hmem _ _).mpr (Or.inl ⟨rfl, rfl⟩), ?_, fun h a ha => ((hmem h a).mp ha).imp_left And.right⟩⟩
    · rw [hentry]
      exact hkept h a ha
    · rw [hentry]
      exact Function.update_self ..

end Insert

/-- A search leaves everything as it is and looks at no more entries than one descent meets. -/
theorem After.search (hs : After calls s T) (hfuel : calls.length < fuel) (domain : Chars) (len : Nat) :
    s.search fuel domain len =
      some ((find (sideOf s.key (signed (text domain))) (T (insideHash domain len))).elim 0 s.ipv4At) := by
  rw [Hashmap.search, (hs.holds.bucket _).insideSearch ((hs.length_le _).trans_lt hfuel), Option.map_some]

end Hashmap

/-! ### Runs -/

theorem Admissible.of_concat {calls : List Call} {c : Call} (h : Admissible (calls ++ [c])) :
    Admissible calls ∧ c.Fits ∧ ∀ a ∈ c.malloc?.toList, a ∉ mallocs calls := by
  have hnodup := h.nodup
  rw [mallocs_concat, List.nodup_append] at hnodup
  exact ⟨⟨fun d hd => h.fits d (List.mem_append_left _ hd), hnodup.1⟩, h.fits c (by simp),
    fun a ha hmem => hnodup.2.2 a hmem a ha rfl⟩

namespace Hashmap

/-- One more call after a sequence: it returns, and the state is again one after a sequence. -/
theorem After.call {calls : List Call} {s : Hashmap} {T : BitVec 32 → RBTree Addr} {fuel : Nat} {c : Call}
    (hs : After calls s T) (hc : Admissible (calls ++ [c])) (hfuel : calls.length < fuel) :
    ∃ s' T' r, s.call fuel c = some (s', r) ∧ After (calls ++ [c]) s' T' := by
  obtain ⟨-, hfits, hfresh⟩ := hc.of_concat
  cases c with
  | search domain len =>
      refine ⟨s, T, _, by rw [Hashmap.call, hs.search hfuel, Option.map_some], ?_⟩
      exact hs.concat _ hs.holds (fun _ _ => rfl) hfresh
  | insert node domain len ipv4 =>
      by_cases hzero : node = 0
      · refine ⟨s, T, _, by rw [Hashmap.call, insert, if_pos hzero, Option.map_some], ?_⟩
        exact hs.concat _ hs.holds (fun _ _ => rfl) hfresh
      · have hfresh' : node ∉ mallocs calls := hfresh node ((mem_malloc? hzero).mpr rfl)
        obtain ⟨s', T', r, hinsert, hafter, -⟩ := hs.insert_spec ipv4 hfuel hfits.2 hzero hfits.1 hfresh'
        exact ⟨s', T', _, by rw [Hashmap.call, hinsert, Option.map_some], hafter⟩

/-- Every sequence of calls returns, with search trees in all buckets. -/
theorem After.runCalls {calls : List Call} {fuel : Nat} (h : Admissible calls) (hfuel : calls.length < fuel) :
    ∃ s T, Hashmap.init.runCalls fuel calls = some s ∧ After calls s T := by
  induction calls using List.reverseRecOn with
  | nil => exact ⟨Hashmap.init, _, rfl, After.init⟩
  | append_singleton calls c ih =>
      rw [List.length_append, List.length_singleton] at hfuel
      obtain ⟨s, T, hrun, hs⟩ := ih h.of_concat.1 (by omega)
      obtain ⟨s', T', r, hcall, hs'⟩ := hs.call h (show calls.length < fuel by omega)
      refine ⟨s', T', ?_, hs'⟩
      rw [Hashmap.runCalls] at hrun ⊢
      rw [List.foldlM_append, hrun]
      simp [hcall]

end Hashmap

end SimpDserver.NetHashmap
