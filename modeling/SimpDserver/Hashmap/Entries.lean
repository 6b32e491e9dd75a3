import SimpDserver.Hashmap.Calls

/-!
# Entries and searches

Which entry a search returns, and which entries there are to be found: those the pointers of a bucket lead to,
from its root on.
-/

namespace SimpDserver.NetHashmap

open RedBlack

namespace Hashmap

/-- The search for a domain returns the entry at `a`. -/
def Finds (fuel : Nat) (s : Hashmap) (domain : Chars) (len : Nat) (a : Addr) : Prop :=
  ∃ compared ipv4 e, s.insideSearch fuel (insideHash domain len) domain = some (compared ++ [a], ipv4) ∧
    s.entry a = some e ∧ insideStrcmp (some domain) (some e.domain) = 0

/-- The nodes the pointers of a bucket lead to. -/
inductive InBucket (s : Hashmap) (h : BitVec 32) : Addr → Prop
  | root {a : Addr} (hroot : s.array h = a) (hne : a ≠ 0) : InBucket s h a
  | left {a : Addr} {r : RbNode} (parent : InBucket s h a) (hnode : s.rbnode a = some r) (hne : r.rbLeft ≠ 0) :
      InBucket s h r.rbLeft
  | right {a : Addr} {r : RbNode} (parent : InBucket s h a) (hnode : s.rbnode a = some r) (hne : r.rbRight ≠ 0) :
      InBucket s h r.rbRight

/-- The domain's bucket has an entry with the domain's string. -/
def HasEntry (s : Hashmap) (domain : Chars) (len : Nat) : Prop :=
  ∃ a e, s.InBucket (insideHash domain len) a ∧ s.entry a = some e ∧ text e.domain = text domain

theorem rootOf_mem {T : RBTree Addr} (h : rootOf T ≠ 0) : rootOf T ∈ T.toList := by
  cases T with
  | leaf => exact absurd rfl h
  | node c l x r => exact List.mem_append_right _ List.mem_cons_self

theorem mem_of_links {m : Addr → Option RbNode} {p : Addr} {T : RBTree Addr} (hT : Repr m p T) {a : Addr}
    (ha : a ∈ T.toList) {r : RbNode} (hr : m a = some r) :
    (r.rbLeft ≠ 0 → r.rbLeft ∈ T.toList) ∧ (r.rbRight ≠ 0 → r.rbRight ∈ T.toList) := by
  induction T generalizing p with
  | leaf => exact absurd ha List.not_mem_nil
  | node c lt x rt ihl ihr =>
      obtain ⟨hx, hl, hrt⟩ := hT
      simp only [RBTree.toList, List.mem_append, List.mem_cons] at ha ⊢
      rcases ha with ha | rfl | ha
      · exact ⟨fun h => Or.inl ((ihl hl ha).1 h), fun h => Or.inl ((ihl hl ha).2 h)⟩
      · rw [hx, Option.some.injEq] at hr
        subst hr
        exact ⟨fun h => Or.inl (rootOf_mem h), fun h => Or.inr (Or.inr (rootOf_mem h))⟩
      · exact ⟨fun h => Or.inr (Or.inr ((ihr hrt ha).1 h)), fun h => Or.inr (Or.inr ((ihr hrt ha).2 h))⟩

theorem Bucket.mem_of_inBucket {s : Hashmap} {h : BitVec 32} {T : RBTree Addr} (hT : s.Bucket h T) {a : Addr}
    (ha : s.InBucket h a) : a ∈ T.toList := by
  induction ha with
  | root hroot hne =>
      rw [← hroot, hT.root]
      apply rootOf_mem
      rwa [← hT.root, hroot]
  | left _ hnode hne ih => exact (mem_of_links hT.repr ih hnode).1 hne
  | right _ hnode hne ih => exact (mem_of_links hT.repr ih hnode).2 hne

theorem After.of_hasEntry {calls : List Call} {s : Hashmap} {T : BitVec 32 → RBTree Addr} (hs : After calls s T)
    {domain : Chars} {len : Nat} (h : s.HasEntry domain len) :
    ∃ a ∈ (T (insideHash domain len)).toList, s.key a = signed (text domain) := by
  obtain ⟨a, e, ha, he, htext⟩ := h
  exact ⟨a, (hs.holds.bucket _).mem_of_inBucket ha, by rw [key, he, Option.elim_some, htext]⟩

/-- What the search returns is in the domain's bucket, and compares equal with the domain. -/
theorem After.of_finds {calls : List Call} {s : Hashmap} {T : BitVec 32 → RBTree Addr} {fuel : Nat} (hs : After calls s T)
    (hfuel : calls.length < fuel) {domain : Chars} {len : Nat} {a : Addr} (h : s.Finds fuel domain len a) :
    a ∈ (T (insideHash domain len)).toList ∧ s.key a = signed (text domain) := by
  obtain ⟨compared, ipv4, e, hsearch, he, hcmp⟩ := h
  have hbucket := hs.holds.bucket (insideHash domain len)
  rw [hbucket.insideSearch ((hs.length_le _).trans_lt hfuel), Option.some.injEq, Prod.mk.injEq] at hsearch
  have ha : a ∈ (T (insideHash domain len)).toList := by
    apply spine_subset
    rw [hsearch.1]
    exact List.mem_append_right _ List.mem_cons_self
  refine ⟨ha, ?_⟩
  obtain ⟨e', he', hterm⟩ := hbucket.stored a ha
  obtain rfl : e = e' := Option.some.inj (he.symm.trans he')
  rw [key, he, Option.elim_some]
  rcases insideStrcmp_compares (p := domain) hterm with ⟨-, hr⟩ | ⟨heq, -⟩ | ⟨-, hr⟩
  · rw [hcmp] at hr
    cases hr
  · exact heq.symm
  · rw [hcmp] at hr
    cases hr

end Hashmap

theorem Admissible.insert_unique {calls : List Call} (h : Admissible calls) {a : Addr} (ha : a ≠ 0)
    {d d' : Chars} {l l' : Nat} {ip ip' : Ipv4} (hmem : .insert a d l ip ∈ calls) (hmem' : .insert a d' l' ip' ∈ calls) :
    Call.insert a d l ip = .insert a d' l' ip' := by
  by_contra hne
  have hpairwise := List.pairwise_filterMap.mp h.nodup
  have : Std.Symm fun c c' : Call => ∀ b, c.malloc? = some b → ∀ b', c'.malloc? = some b' → b ≠ b' :=
    ⟨fun c c' hcc b hb b' hb' => (hcc b' hb' b hb).symm⟩
  exact hpairwise.forall hmem hmem' hne a (if_neg ha) a (if_neg ha) rfl

/-- A search that returns the entry an insertion made under some domain: what the two have in common. -/
theorem same_key_of_finds {calls : List Call} {s : Hashmap} {fuel : Nat} (hcalls : Admissible calls)
    (hfuel : calls.length < fuel) (hrun : Hashmap.init.runCalls fuel calls = some s) {a : Addr} {d₁ d₂ : Chars}
    {len₁ len₂ : Nat} {ip : Ipv4} (hinsert : .insert a d₁ len₁ ip ∈ calls) (hfinds : s.Finds fuel d₂ len₂ a) :
    cstring len₁ d₁ = text d₂ ∧ insideHash d₁ len₁ = insideHash d₂ len₂ := by
  obtain ⟨s', T, hrun', hs⟩ := Hashmap.After.runCalls hcalls hfuel
  obtain rfl : s = s' := Option.some.inj (hrun.symm.trans hrun')
  obtain ⟨ha, hkey⟩ := hs.of_finds hfuel hfinds
  have hzero := (hs.holds.bucket _).usable.ne_zero a ha
  obtain ⟨d, len, ip', hmem, hlen, hhash, hentry⟩ := hs.inserted _ a ha
  cases hcalls.insert_unique hzero hinsert hmem
  rw [Hashmap.key, hentry, Option.elim_some, Hashmap.newEntry, text_strncpy hlen] at hkey
  exact ⟨signed_injective hkey, hhash⟩

end SimpDserver.NetHashmap
