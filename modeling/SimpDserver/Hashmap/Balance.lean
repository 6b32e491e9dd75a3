import Mathlib.Analysis.SpecialFunctions.Log.Base
import SimpDserver.Hashmap.Calls

/-!
# The buckets stay balanced

Whatever is inserted, under domains of any bytes, each bucket is a red-black search tree down to its
pointers, and a search in it looks at no more entries than the height of such a tree allows.
-/

namespace SimpDserver.NetHashmap

open RedBlack

namespace Hashmap

/-- Bucket `h` holds the tree `T` after the calls. -/
structure IsRedBlack (s : Hashmap) (calls : List Call) (h : BitVec 32) (T : RBTree Addr) : Prop where
  root : s.array h = rootOf T
  /-- every node's children, parent and colour are those of the tree; the root has no parent -/
  repr : Repr s.rbnode 0 T
  nodup : T.toList.Nodup
  /-- a black root, no red node under a red one, as many black nodes on every path -/
  balanced : ∃ n, Balanced T .black n
  /-- the in-order sequence of domains is strictly decreasing -/
  decreasing : T.toList.Pairwise fun a b => ∃ e f, s.entry a = some e ∧ s.entry b = some f ∧
    insideStrcmp (some e.domain) (some f.domain) > 0
  /-- every entry is that of an insertion whose domain hashes to the bucket, and so does the stored copy
  of a domain without zero bytes -/
  hashed : ∀ a ∈ T.toList, ∃ domain len ipv4, .insert a domain len ipv4 ∈ calls ∧
    insideHash domain len = h ∧ s.entry a = some (newEntry domain len ipv4) ∧
    ((∀ i < len, domain i ≠ 0) → insideHash (newEntry domain len ipv4).domain len = h)

variable {calls : List Call} {s : Hashmap} {T : BitVec 32 → RBTree Addr} {fuel : Nat}

theorem After.isRedBlack (hs : After calls s T) (h : BitVec 32) : s.IsRedBlack calls h (T h) := by
  have hbucket := hs.holds.bucket h
  refine ⟨hbucket.root, hbucket.repr, hbucket.usable.nodup, hbucket.balanced, ?_, ?_⟩
  · apply hbucket.sorted.imp_of_mem
    intro a b ha hb hab
    obtain ⟨e, he, -⟩ := hbucket.stored a ha
    obtain ⟨f, hf, hterm⟩ := hbucket.stored b hb
    rw [key, key, he, hf] at hab
    exact ⟨e, f, he, hf, (insideStrcmp_pos hterm).mpr hab⟩
  · intro a ha
    obtain ⟨domain, len, ipv4, hmem, hlen, hhash, hentry⟩ := hs.inserted h a ha
    refine ⟨domain, len, ipv4, hmem, hhash, hentry, fun hne => ?_⟩
    rw [← hhash, insideHash, insideHash, hashLoop_congr]
    intro i hi
    simp only [newEntry, strncpy, if_pos hi]
    exact if_pos fun j hj => hne j (by omega)

end Hashmap

theorem height_le_logb {T : RBTree Addr} {n : Nat} (h : Balanced T .black n) :
    (T.height : ℝ) ≤ 2 * Real.logb 2 (T.toList.length + 1) := by
  have hheight : T.height ≤ 2 * n := by simpa using h.height_le
  have hsize : (2 : ℝ) ^ (n : ℝ) ≤ T.toList.length + 1 := by
    rw [Real.rpow_natCast]
    exact_mod_cast h.pow_le_size
  have hlog : (n : ℝ) ≤ Real.logb 2 (T.toList.length + 1) :=
    (Real.le_logb_iff_rpow_le (by norm_num) (by positivity)).mpr hsize
  calc (T.height : ℝ) ≤ 2 * n := by exact_mod_cast hheight
    _ ≤ 2 * Real.logb 2 (T.toList.length + 1) := by linarith

/-- After every sequence of calls each bucket is a red-black search tree, and a search in it compares
with at most twice the binary logarithm of its size plus one. -/
theorem buckets_red_black {calls : List Call} {fuel : Nat} (h : Admissible calls) (hfuel : calls.length < fuel) :
    ∃ s, Hashmap.init.runCalls fuel calls = some s ∧ ∀ b, ∃ T, s.IsRedBlack calls b T ∧
      ∀ domain, ∃ compared ipv4, s.insideSearch fuel b domain = some (compared, ipv4) ∧
        compared ⊆ T.toList ∧ (compared.length : ℝ) ≤ 2 * Real.logb 2 (T.toList.length + 1) := by
  obtain ⟨s, T, hrun, hs⟩ := Hashmap.After.runCalls h hfuel
  refine ⟨s, hrun, fun b => ⟨T b, hs.isRedBlack b, fun domain => ?_⟩⟩
  have hbucket := hs.holds.bucket b
  obtain ⟨n, hn⟩ := hbucket.balanced
  refine ⟨_, _, hbucket.insideSearch ((hs.length_le b).trans_lt hfuel), spine_subset _, ?_⟩
  calc ((spine (sideOf s.key (signed (text domain))) (T b)).length : ℝ)
      ≤ (T b).height := by exact_mod_cast length_spine_le (T b)
    _ ≤ 2 * Real.logb 2 ((T b).toList.length + 1) := height_le_logb hn

/-- The domain `abab`, and two others of the same hash. -/
def sameHash : Fin 3 → Chars
  | 0 => fun i => [97, 98, 97, 98].getD i 0
  | 1 => fun i => [97, 98, 98, 65].getD i 0
  | 2 => fun i => [98, 65, 97, 98].getD i 0

/-- Three domains of one bucket are inserted in ascending order, and the first of them once more. -/
def threeAndAgain : List Call :=
  [.insert 16 (sameHash 0) 4 7, .insert 32 (sameHash 1) 4 9, .insert 48 (sameHash 2) 4 8, .insert 64 (sameHash 0) 4 5]

/-- The bucket has been rotated: the second node is its root, and has the third on its left. -/
theorem buckets_red_black_three : ∃ s, Hashmap.init.runCalls 5 threeAndAgain = some s ∧
    (∀ i, insideHash (sameHash i) 4 = insideHash (sameHash 0) 4) ∧
    s.insideSearch 5 (insideHash (sameHash 0) 4) (sameHash 2) = some ([32, 48], 8) ∧
    ∀ b, ∃ T, s.IsRedBlack threeAndAgain b T ∧
      ∀ domain, ∃ compared ipv4, s.insideSearch 5 b domain = some (compared, ipv4) ∧
        compared ⊆ T.toList ∧ (compared.length : ℝ) ≤ 2 * Real.logb 2 (T.toList.length + 1) := by
  have hfits : ∀ c ∈ threeAndAgain, c.Fits := by
    simp only [threeAndAgain, List.forall_mem_cons, Call.Fits]
    exact ⟨⟨rfl, by decide⟩, ⟨rfl, by decide⟩, ⟨rfl, by decide⟩, ⟨rfl, by decide⟩, by simp⟩
  obtain ⟨s, hrun, hbuckets⟩ := @buckets_red_black threeAndAgain 5 ⟨hfits, by decide⟩ (by decide)
  have hsearch : ((Hashmap.init.runCalls 5 threeAndAgain).bind fun s =>
      s.insideSearch 5 (insideHash (sameHash 0) 4) (sameHash 2)) = some ([32, 48], 8) := by decide +kernel
  rw [hrun] at hsearch
  exact ⟨s, hrun, by decide, hsearch, hbuckets⟩

end SimpDserver.NetHashmap
