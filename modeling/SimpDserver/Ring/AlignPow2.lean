import SimpDserver.Ring.Create

/-!
# The sizes `align_pow2` returns

The loop stops at the first mark above the count. The marks are the powers of two up to `2 ^ 31`, over and
over, so for a count of `2 ^ 31` or more it never stops; and the last of them is negative as the `int` that
is returned.
-/

namespace SimpDserver.NetRing

/-- The powers of two that are at least two and greater than the count. -/
def powersAbove (num : Word) : Set Nat := {m | (∃ j, m = 2 ^ j) ∧ 2 ≤ m ∧ num.toNat < m}

/-- The mask of a ring of this size selects one of so many slots, whatever the counter. -/
def MaskSelects (size : Word) (slots : Int) : Prop := ∀ counter : Word, ((counter &&& (size - 1)).toNat : Int) < slots

/-- What `align_pow2` is for: it returns, and for a count in range the `int` it returns is the least power of two
above the count, with a mask that selects one of so many slots. -/
structure AlignsPow2 (num : Word) : Prop where
  returns : ∃ rounds size, alignPow2 rounds num = some size
  least : num.toNat < 2 ^ 31 → ∀ rounds size, alignPow2 rounds num = some size →
    ∃ m : Nat, IsLeast (powersAbove num) m ∧ size.toInt = m ∧ MaskSelects size size.toInt

variable {num size : Word} {rounds : Nat}

theorem exists_alignPow2Loop {offset : Nat} (h : ∃ j, offset < j ∧ j ≤ offset + rounds ∧ num < shiftOne j) :
    ∃ stop, alignPow2Loop num rounds offset = some stop := by
  induction rounds generalizing offset with
  | zero =>
      obtain ⟨j, hlt, hle, -⟩ := h
      omega
  | succ rounds ih =>
      obtain ⟨j, hlt, hle, hnum⟩ := h
      rw [alignPow2Loop]
      by_cases hgo : shiftOne (offset + 1) ≤ num
      · have hne : j ≠ offset + 1 := by
          rintro rfl
          exact absurd hgo (BitVec.not_le.mpr hnum)
        obtain ⟨stop, hstop⟩ := ih (show ∃ j, offset + 1 < j ∧ j ≤ offset + 1 + rounds ∧ num < shiftOne j from
          ⟨j, by omega, by omega, hnum⟩)
        exact ⟨stop, by rw [if_pos hgo, hstop]⟩
      · exact ⟨offset + 1, by rw [if_neg hgo]⟩

/-- The loop stops just for the counts below its greatest mark. -/
theorem exists_alignPow2_iff : (∃ rounds size, alignPow2 rounds num = some size) ↔ num.toNat < 2 ^ 31 := by
  constructor
  · intro h
    obtain ⟨rounds, size, hsize⟩ := h
    obtain ⟨stop, hloop, -⟩ := Option.map_eq_some_iff.mp hsize
    obtain ⟨-, hlt, -⟩ := alignPow2Loop_spec hloop
    have hle := Nat.pow_le_pow_right (show 0 < 2 by omega) (show stop % 32 ≤ 31 by omega)
    rw [shiftOne_eq, BitVec.lt_def, BitVec.toNat_ofNat, Nat.mod_eq_of_lt (by omega)] at hlt
    omega
  · intro hnum
    have hmark : num < shiftOne 31 := by
      rw [BitVec.lt_def, toNat_shiftOne (by omega)]
      exact hnum
    obtain ⟨stop, hstop⟩ := exists_alignPow2Loop
      (show ∃ j, 0 < j ∧ j ≤ 0 + 31 ∧ num < shiftOne j from ⟨31, by omega, by omega, hmark⟩)
    exact ⟨31, shiftOne stop, by rw [alignPow2, hstop, Option.map_some]⟩

theorem alignPow2_isLeast (h : alignPow2 rounds num = some size) (hnum : num.toNat < 2 ^ 31) :
    ∃ k ≤ 31, size = BitVec.ofNat 32 (2 ^ k) ∧ IsLeast (powersAbove num) (2 ^ k) := by
  obtain ⟨k, hk, hsize, habove, hleast⟩ := alignPow2_least h hnum
  rw [max_lt_iff] at habove
  refine ⟨k, hk, hsize, ⟨⟨k, rfl⟩, habove.2, habove.1⟩, ?_⟩
  rintro _ ⟨⟨j, rfl⟩, htwo, hgt⟩
  exact Nat.pow_le_pow_right (by omega) (hleast j (max_lt hgt htwo))

theorem maskSelects_two_pow {k : Nat} (hk : k ≤ 31) : MaskSelects (BitVec.ofNat 32 (2 ^ k)) (2 ^ k : Nat) := by
  intro counter
  have hslot : counter &&& (BitVec.ofNat 32 (2 ^ k) - 1) = slotOf (maskOf k) counter.toNat := by
    rw [slotOf, ofNat_sub_one_eq_maskOf, BitVec.ofNat_toNat, BitVec.setWidth_eq]
  rw [hslot, toNat_slotOf_maskOf (by omega), Nat.cast_lt]
  exact Nat.mod_lt _ (Nat.two_pow_pos k)

theorem toInt_two_pow {k : Nat} (hk : k ≤ 30) : (BitVec.ofNat 32 (2 ^ k)).toInt = (2 ^ k : Nat) := by
  have hpow := Nat.pow_le_pow_right (show 0 < 2 by omega) hk
  rw [BitVec.toInt_eq_toNat_of_lt (by rw [BitVec.toNat_ofNat, Nat.mod_eq_of_lt (by omega)]; omega),
    BitVec.toNat_ofNat, Nat.mod_eq_of_lt (by omega)]

/-- From half the range on, the `int` is the least there is. -/
theorem toInt_of_alignPow2 (h : alignPow2 rounds num = some size) (hlow : 2 ^ 30 ≤ num.toNat) :
    size.toInt = -2 ^ 31 := by
  have hnum : num.toNat < 2 ^ 31 := exists_alignPow2_iff.mp ⟨rounds, size, h⟩
  obtain ⟨k, hk, rfl, ⟨-, -, habove⟩, -⟩ := alignPow2_isLeast h hnum
  have hgt : 30 < k := (Nat.pow_lt_pow_iff_right (show 1 < 2 by omega)).mp (hlow.trans_lt habove)
  obtain rfl : k = 31 := by omega
  decide

theorem toInt_isLeast_of_alignPow2 (h : alignPow2 rounds num = some size) (hnum : num.toNat < 2 ^ 30) :
    ∃ m : Nat, IsLeast (powersAbove num) m ∧ size.toInt = m ∧ MaskSelects size size.toInt := by
  obtain ⟨k, hk, rfl, hleast⟩ := alignPow2_isLeast h (by omega)
  have hle : 2 ^ k ≤ 2 ^ 30 := hleast.2 ⟨⟨30, rfl⟩, by omega, hnum⟩
  have hint := toInt_two_pow ((Nat.pow_le_pow_iff_right (show 1 < 2 by omega)).mp hle)
  refine ⟨2 ^ k, hleast, hint, ?_⟩
  rw [hint]
  exact maskSelects_two_pow hk

/-- `align_pow2` does what it is for exactly for the counts below `2 ^ 30`. It returns exactly for those below
`2 ^ 31`; and whenever it does, what it returns is right as an unsigned number. -/
theorem alignsPow2_iff (num : Word) :
    (AlignsPow2 num ↔ num.toNat < 2 ^ 30) ∧
    ((∃ rounds size, alignPow2 rounds num = some size) ↔ num.toNat < 2 ^ 31) ∧
    ∀ rounds size, alignPow2 rounds num = some size →
      IsLeast (powersAbove num) size.toNat ∧ MaskSelects size size.toNat := by
  refine ⟨⟨fun h => ?_, fun hnum => ⟨exists_alignPow2_iff.mpr (by omega), fun _ rounds size hsize => ?_⟩⟩,
    exists_alignPow2_iff, fun rounds size hsize => ?_⟩
  · by_contra hlow
    obtain ⟨rounds, size, hsize⟩ := h.returns
    obtain ⟨m, -, hint, -⟩ := h.least (exists_alignPow2_iff.mp h.returns) rounds size hsize
    rw [toInt_of_alignPow2 hsize (by omega)] at hint
    omega
  · exact toInt_isLeast_of_alignPow2 hsize hnum
  · obtain ⟨k, hk, rfl, hleast⟩ := alignPow2_isLeast hsize (exists_alignPow2_iff.mp ⟨rounds, size, hsize⟩)
    have hpow := Nat.pow_le_pow_right (show 0 < 2 by omega) hk
    rw [BitVec.toNat_ofNat, Nat.mod_eq_of_lt (by omega)]
    exact ⟨hleast, maskSelects_two_pow hk⟩

/-- A request for `2 ^ 31` slots never returns, and one for `2 ^ 30` returns a negative number. -/
theorem not_alignsPow2 : ¬(∀ num, AlignsPow2 num) ∧ (∀ rounds, alignPow2 rounds 0x80000000 = none) ∧
    ∃ size, alignPow2 31 0x40000000 = some size ∧ size.toInt = -2 ^ 31 := by
  have hnever : ∀ rounds, alignPow2 rounds 0x80000000 = none := by
    intro rounds
    rw [Option.eq_none_iff_forall_ne_some]
    intro size hsize
    exact absurd (exists_alignPow2_iff.mp ⟨rounds, size, hsize⟩) (by decide)
  refine ⟨fun hall => ?_, hnever, 0x80000000, by decide, by decide⟩
  obtain ⟨rounds, size, hsize⟩ := (hall 0x80000000).returns
  rw [hnever] at hsize
  cases hsize

end SimpDserver.NetRing
