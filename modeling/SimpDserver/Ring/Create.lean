import SimpDserver.Ring.Safety

/-!
# The rings `create` returns

The shifting loop stops at a power of two above the requested count, never at the `1` a shift by a
multiple of 32 gives, so every ring has `2 ^ k` slots for some `k` from 1 to 31 and starts sound.
-/

namespace SimpDserver.NetRing

open Transition

variable {τ α : Type}

/-- Where the loop stops, the count lies below the mark, and it did not at the marks before. -/
theorem alignPow2Loop_spec {num : Word} {fuel offset stop : Nat}
    (h : alignPow2Loop num fuel offset = some stop) :
    offset < stop ∧ num < shiftOne stop ∧ ∀ j, offset < j → j < stop → shiftOne j ≤ num := by
  induction fuel generalizing offset with
  | zero => simp [alignPow2Loop] at h
  | succ fuel ih =>
      rw [alignPow2Loop] at h
      split at h
      next hle =>
        obtain ⟨hlt, hnum, hall⟩ := ih h
        refine ⟨by omega, hnum, fun j hj hj' => ?_⟩
        rcases Nat.lt_or_ge (offset + 1) j with hgt | hge
        · exact hall j hgt hj'
        · rwa [show j = offset + 1 by omega]
      next hle =>
        cases h
        exact ⟨by omega, BitVec.not_le.mp hle, fun j hj hj' => by omega⟩

theorem shiftOne_eq (offset : Nat) : shiftOne offset = BitVec.ofNat 32 (2 ^ (offset % 32)) := by
  rw [← BitVec.toNat_inj, BitVec.toNat_ofNat, ← BitVec.toNat_twoPow]
  rfl

theorem alignPow2_spec {fuel : Nat} {num size : Word} (h : alignPow2 fuel num = some size) :
    ∃ k, 1 ≤ k ∧ k ≤ 31 ∧ size = BitVec.ofNat 32 (2 ^ k) := by
  rw [alignPow2, Option.map_eq_some_iff] at h
  obtain ⟨stop, hloop, rfl⟩ := h
  obtain ⟨hpos, hnum, hall⟩ := alignPow2Loop_spec hloop
  refine ⟨stop % 32, ?_, by omega, shiftOne_eq stop⟩
  rw [Nat.one_le_iff_ne_zero]
  intro hzero
  have hone : shiftOne 1 ≤ num := hall 1 (by omega) (by omega)
  have hlast : num < shiftOne 0 := by rw [shiftOne_eq stop, hzero] at hnum; exact hnum
  have h1 : shiftOne 1 = 2#32 := rfl
  have h0 : shiftOne 0 = 1#32 := rfl
  rw [h1] at hone
  rw [h0] at hlast
  bv_omega

theorem create_eq_some {malloc : BitVec 64 → Bool} {junk : Word → Option α} {fuel : Nat} {nem : Word}
    {ring : Ring α} (h : create malloc junk fuel nem = some ring) :
    ∃ size, alignPow2 fuel nem = some size ∧ ring.prod.size = size ∧ ring.prod.mask = size - 1 ∧
      (ring.prod.head = 0 ∧ ring.prod.tail = 0) ∧ ring.cons.head = 0 ∧ ring.cons.tail = 0 := by
  obtain ⟨size, hsize, hgrant⟩ := Option.bind_eq_some_iff.mp h
  split at hgrant
  next =>
    cases hgrant
    exact ⟨size, hsize, rfl, rfl, ⟨rfl, rfl⟩, rfl, rfl⟩
  next => simp at hgrant

theorem ofNat_sub_one_eq_maskOf (k : Nat) : BitVec.ofNat 32 (2 ^ k) - 1 = maskOf k := by
  have := Nat.two_pow_pos k
  rw [maskOf, sub_eq_iff_eq_add, show (1 : Word) = BitVec.ofNat 32 1 from rfl, ← BitVec.ofNat_add]
  congr 1
  omega

/-- A ring `create` returns has `2 ^ k` slots, the matching mask, and all counters at zero. -/
theorem create_spec {malloc : BitVec 64 → Bool} {junk : Word → Option α} {fuel : Nat} {nem : Word}
    {ring : Ring α} (h : create malloc junk fuel nem = some ring) :
    ∃ k, 1 ≤ k ∧ k ≤ 31 ∧ ring.prod.size = BitVec.ofNat 32 (2 ^ k) ∧ ring.prod.mask = maskOf k ∧
      (ring.prod.head = 0 ∧ ring.prod.tail = 0) ∧ ring.cons.head = 0 ∧ ring.cons.tail = 0 := by
  obtain ⟨size, hsize, hprod, hmask, hcounters⟩ := create_eq_some h
  obtain ⟨k, hlo, hhi, rfl⟩ := alignPow2_spec hsize
  exact ⟨k, hlo, hhi, hprod, hmask.trans (ofNat_sub_one_eq_maskOf k), hcounters⟩

theorem toNat_shiftOne {offset : Nat} (h : offset < 32) : (shiftOne offset).toNat = 2 ^ offset := by
  have hpow := Nat.pow_lt_pow_right (show 1 < 2 by omega) h
  rw [shiftOne_eq, Nat.mod_eq_of_lt h, BitVec.toNat_ofNat, Nat.mod_eq_of_lt hpow]

/-- Inside the shift's range the loop stops at the least power of two above the count, and above one. -/
theorem alignPow2_least {fuel : Nat} {num size : Word} (h : alignPow2 fuel num = some size) (hnum : num.toNat < 2 ^ 31) :
    ∃ k, k ≤ 31 ∧ size = BitVec.ofNat 32 (2 ^ k) ∧ max num.toNat 1 < 2 ^ k ∧
      ∀ j, max num.toNat 1 < 2 ^ j → k ≤ j := by
  rw [alignPow2, Option.map_eq_some_iff] at h
  obtain ⟨stop, hloop, rfl⟩ := h
  obtain ⟨hpos, hlt, hall⟩ := alignPow2Loop_spec hloop
  have hbound : ∀ j, 0 < j → j < stop → j < 32 → 2 ^ j ≤ num.toNat := by
    intro j hj hjstop hj32
    rw [← toNat_shiftOne hj32]
    exact hall j hj hjstop
  have hstop : stop ≤ 31 := by
    by_contra hgt
    have := hbound 31 (by omega) (by omega) (by omega)
    omega
  have hlast : num.toNat < 2 ^ stop := by
    rw [← toNat_shiftOne (by omega)]
    exact hlt
  refine ⟨stop, hstop, ?_, max_lt hlast (Nat.one_lt_two_pow (by omega)), fun j hj => ?_⟩
  · rw [shiftOne_eq, Nat.mod_eq_of_lt (by omega)]
  · by_contra hlt
    have hpos : 0 < j := Nat.pos_of_ne_zero fun hzero => by
      rw [hzero, pow_zero] at hj
      omega
    have := hbound j hpos (by omega) (by omega)
    omega

theorem Sound.fresh {k : Nat} {ring : Ring α} (hsize : ring.prod.size = BitVec.ofNat 32 (2 ^ k))
    (hmask : ring.prod.mask = maskOf k) (hprod : ring.prod.head = 0 ∧ ring.prod.tail = 0)
    (hcons : ring.cons.head = 0 ∧ ring.cons.tail = 0) : Sound k (System.fresh (τ := τ) ring) where
  tickets := .fresh hprod hcons
  size := hsize
  mask := hmask
  taken_le := le_rfl
  room := Nat.zero_le _
  regs _ := trivial
  slots _ := trivial
  filled _ _ h := absurd h (Nat.not_lt_zero _)
  occupied _ _ h := by simp [System.fresh, History.empty] at h
  stored := rfl
  delivered := rfl
  lost := rfl
  refused _ h := by simp [System.fresh, History.empty] at h

variable [DecidableEq τ]

/-- Every run in time, from any ring `create` returns, stays sound. -/
theorem sound_of_reachable {y : System τ α} (h : (machine τ α).Reachable InTime y) :
    ∃ k, 1 ≤ k ∧ k ≤ 31 ∧ Sound k y := by
  refine h.invariant (I := fun y => ∃ k, 1 ≤ k ∧ k ≤ 31 ∧ Sound k y) (fun y hstart => ?_)
    (fun y l y' hy intime hstep => ?_)
  · obtain ⟨malloc, junk, fuel, nem, ring, hcreate, rfl⟩ := hstart
    obtain ⟨k, hlo, hhi, hsize, hmask, hprod, hcons⟩ := create_spec hcreate
    exact ⟨k, hlo, hhi, .fresh hsize hmask hprod hcons⟩
  · obtain ⟨k, hlo, hhi, hsound⟩ := hy
    exact ⟨k, hlo, hhi, hsound.next hhi intime hstep⟩

end SimpDserver.NetRing
