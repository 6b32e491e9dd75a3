import SimpDserver.Hashmap.Entries
import SimpDserver.Hashmap.FirstWrite

/-!
# Addresses other than zero

A search that finds nothing returns zero. As long as every insertion that makes an entry gives it another address,
a search that returns zero has found nothing.
-/

namespace SimpDserver.NetHashmap

open RedBlack

/-- What the calls have left: an entry for every domain inserted, and none with address zero. -/
structure NonZero (calls : List Call) (s : Hashmap) (T : BitVec 32 → RBTree Addr) : Prop where
  after : Hashmap.After calls s T
  terminated : ∀ malloc domain len ip, .insert malloc domain len ip ∈ calls → len < domainLen ∧ domain len = 0
  present : ∀ malloc domain len ip, .insert malloc domain len ip ∈ calls → malloc ≠ 0 →
    ∃ a ∈ (T (insideHash domain len)).toList, s.key a = signed (text domain)
  nonzero : ∀ h, ∀ a ∈ (T h).toList, s.ipv4At a ≠ 0

namespace NonZero

variable {calls : List Call} {s : Hashmap} {T : BitVec 32 → RBTree Addr} {fuel : Nat}

theorem init : NonZero [] Hashmap.init fun _ => .leaf where
  after := Hashmap.After.init
  terminated _ _ _ _ h := absurd h List.not_mem_nil
  present _ _ _ _ h := absurd h List.not_mem_nil
  nonzero _ _ h := absurd h List.not_mem_nil

theorem search_ne_zero (hs : NonZero calls s T) (hfuel : calls.length < fuel) {domain : Chars} {len : Nat}
    (h : ∃ a ∈ (T (insideHash domain len)).toList, s.key a = signed (text domain)) :
    ∃ ip, s.search fuel domain len = some ip ∧ ip ≠ 0 := by
  obtain ⟨a, ha, hkey⟩ := h
  have hsorted := (hs.after.holds.bucket (insideHash domain len)).sorted
  refine ⟨s.ipv4At a, ?_, hs.nonzero _ a ha⟩
  rw [hs.after.search hfuel, (find_eq_some_iff hsorted).mpr ⟨ha, hkey⟩, Option.elim_some]

section Insert

variable {malloc : Addr} {domain : Chars} {len : Nat} {ip : Ipv4} (hs : NonZero calls s T) (hlen : len < domainLen)
  (hzero : domain len = 0)
include hs hlen hzero

theorem terminated_concat :
    ∀ m d l i, Call.insert m d l i ∈ calls ++ [.insert malloc domain len ip] → l < domainLen ∧ d l = 0 := by
  intro m d l i hmem
  rcases List.mem_append.mp hmem with hmem | hmem
  · exact hs.terminated m d l i hmem
  · obtain ⟨-, rfl, rfl, -⟩ := Call.insert.inj (List.mem_singleton.mp hmem)
    exact ⟨hlen, hzero⟩

theorem insert_null : s.insert fuel 0 domain len ip = some (s, -1) ∧ NonZero (calls ++ [.insert 0 domain len ip]) s T := by
  refine ⟨by rw [Hashmap.insert, if_pos rfl], ?_, hs.terminated_concat hlen hzero, ?_, hs.nonzero⟩
  · exact hs.after.concat _ hs.after.holds (fun _ _ => rfl) fun b hb => absurd hb List.not_mem_nil
  · intro m d l i hmem hm
    rcases List.mem_append.mp hmem with hmem | hmem
    · exact hs.present m d l i hmem hm
    · obtain ⟨rfl, -⟩ := Call.insert.inj (List.mem_singleton.mp hmem)
      exact absurd rfl hm

/-- An insertion keeps this if its address is not zero or the domain has an entry. -/
theorem insert (hfuel : calls.length < fuel) (haligned : Aligned malloc) (hfresh : malloc ∉ mallocs calls)
    (hip : ip ≠ 0 ∨ s.HasEntry domain len) :
    ∃ s' ret T', s.insert fuel malloc domain len ip = some (s', ret) ∧
      NonZero (calls ++ [.insert malloc domain len ip]) s' T' := by
  by_cases hm : malloc = 0
  · subst hm
    exact ⟨s, -1, T, hs.insert_null hlen hzero⟩
  have hcstring : text domain = cstring len domain := cstring_of_zero hlen.le hzero
  obtain ⟨s', T', ret, hinsert, hafter, hkeep, hcase⟩ := hs.after.insert_spec ip hfuel hlen hm haligned hfresh
  have hkey : ∀ {h a}, a ∈ (T h).toList → s'.key a = s.key a := fun ha => Hashmap.key_congr (hkeep _ _ ha).2
  refine ⟨s', ret, T', hinsert, hafter, hs.terminated_concat hlen hzero, ?_, ?_⟩
  · intro m d l i hmem hm'
    rcases List.mem_append.mp hmem with hmem | hmem
    · obtain ⟨b, hb, hkeyb⟩ := hs.present m d l i hmem hm'
      exact ⟨b, (hkeep _ b hb).1, (hkey hb).trans hkeyb⟩
    · obtain ⟨-, rfl, rfl, -⟩ := Call.insert.inj (List.mem_singleton.mp hmem)
      rw [hcstring]
      rcases hcase with ⟨⟨a, ha, hkeya⟩, -⟩ | ⟨-, -, hnode, hself, -⟩
      · exact ⟨a, (hkeep _ a ha).1, (hkey ha).trans hkeya⟩
      · exact ⟨malloc, hnode, by rw [Hashmap.key, hself, Option.elim_some, Hashmap.newEntry, text_strncpy hlen]⟩
  · intro h b hb
    have hold : ∀ b ∈ (T h).toList, s'.ipv4At b ≠ 0 := fun b hb => by
      rw [Hashmap.ipv4At_congr (hkeep h b hb).2]
      exact hs.nonzero h b hb
    rcases hcase with ⟨-, -, rfl, -⟩ | ⟨hnone, -, -, hself, hmem⟩
    · exact hold b hb
    · rcases hmem h b hb with rfl | hb
      · rw [Hashmap.ipv4At, hself, Option.elim_some]
        apply hip.resolve_right
        intro hentry
        obtain ⟨a, ha, hkeya⟩ := hs.after.of_hasEntry hentry
        exact hnone a ha (hkeya.trans (congrArg signed hcstring))
      · exact hold b hb

end Insert

end NonZero

end SimpDserver.NetHashmap
