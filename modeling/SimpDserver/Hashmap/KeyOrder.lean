import SimpDserver.Hashmap.Strings
import SimpDserver.Lib.ThreeWay

/-!
# The order of the keys

On the keys a node's `domain` array can hold, the comparison is a strict total order, and it comes to its
result before the countdown runs out. On longer strings that agree too far the countdown decides, the same
way in both orders.
-/

namespace SimpDserver.NetHashmap

open ThreeWay

/-- A string that ends before `NET_HASHMAP_DOMAIN_LEN` bytes. -/
structure Domain where
  chars : Chars
  ends : Terminated domainLen chars

/-- The loop of `inside_strcmp`, without a result where the countdown would give it one. -/
def strcmpUncounted (to' : Nat) (p1 p2 : Chars) : Option Int :=
  if p1 0 ≠ 0 ∧ p2 0 ≠ 0 then
    if (p1 0).toInt > (p2 0).toInt then some 1
    else if (p1 0).toInt < (p2 0).toInt then some (-1)
    else match to' with
      | 0 => none
      | to' + 1 => strcmpUncounted to' p1.next p2.next
  else if p1 0 = 0 ∧ p2 0 = 0 then some 0
  else if p1 0 = 0 then some (-1)
  else some 1

/-- The countdown's result is less than zero, the others are the loop's own. -/
theorem strcmpLoop_eq_getD (to' : Nat) (p q : Chars) : strcmpLoop to' p q = (strcmpUncounted to' p q).getD (-1) := by
  induction to' generalizing p q with
  | zero =>
      rw [strcmpLoop.eq_def, strcmpUncounted.eq_def]
      simp only [apply_ite fun r : Option Int => r.getD (-1), Option.getD_some, Option.getD_none]
  | succ to' ih =>
      rw [strcmpLoop.eq_def, strcmpUncounted.eq_def]
      simp only [apply_ite fun r : Option Int => r.getD (-1), Option.getD_some, ih]

theorem strcmpUncounted_of_ne {to' : Nat} {p q : Chars} (h : ¬(p 0 = q 0 ∧ p 0 ≠ 0)) :
    strcmpUncounted to' p q ≠ none := by
  rw [strcmpUncounted.eq_def]
  by_cases hboth : p 0 ≠ 0 ∧ q 0 ≠ 0
  · rw [if_pos hboth]
    rcases lt_trichotomy (p 0).toInt (q 0).toInt with hlt | heq | hgt
    · rw [if_neg hlt.not_gt, if_pos hlt]
      exact Option.some_ne_none _
    · exact absurd ⟨BitVec.toInt_inj.mp heq, hboth.1⟩ h
    · rw [if_pos hgt]
      exact Option.some_ne_none _
  · rw [if_neg hboth, ← apply_ite some, ← apply_ite some]
    exact Option.some_ne_none _

/-- The countdown decides just when that many bytes and one more are equal, and none of them ends a string. -/
theorem strcmpUncounted_eq_none_iff {to' : Nat} {p q : Chars} :
    strcmpUncounted to' p q = none ↔ ∀ i ≤ to', p i = q i ∧ p i ≠ 0 := by
  induction to' generalizing p q with
  | zero =>
      constructor
      · intro hnone i hi
        rw [Nat.le_zero.mp hi]
        exact not_not.mp fun h => strcmpUncounted_of_ne h hnone
      · intro hall
        obtain ⟨heq, hne⟩ := hall 0 le_rfl
        rw [strcmpUncounted, if_pos ⟨hne, heq ▸ hne⟩, heq, if_neg (lt_irrefl _), if_neg (lt_irrefl _)]
  | succ to' ih =>
      have hstep : p 0 = q 0 ∧ p 0 ≠ 0 → strcmpUncounted (to' + 1) p q = strcmpUncounted to' p.next q.next := by
        intro h
        rw [strcmpUncounted, if_pos ⟨h.2, h.1 ▸ h.2⟩, h.1, if_neg (lt_irrefl _), if_neg (lt_irrefl _)]
      constructor
      · intro hnone i hi
        have h0 : p 0 = q 0 ∧ p 0 ≠ 0 := not_not.mp fun h => strcmpUncounted_of_ne h hnone
        rw [hstep h0] at hnone
        cases i with
        | zero => exact h0
        | succ i => exact ih.mp hnone i (by omega)
      · intro hall
        rw [hstep (hall 0 (Nat.zero_le _))]
        exact ih.mpr fun i hi => hall (i + 1) (by omega)

theorem strcmpUncounted_eq {p q : Chars} (hq : Terminated domainLen q) :
    strcmpUncounted domainLen p q = some (insideStrcmp (some p) (some q)) := by
  have hsome : strcmpUncounted domainLen p q ≠ none := by
    intro hnone
    obtain ⟨i, hi, hzero⟩ := hq
    obtain ⟨heq, hne⟩ := strcmpUncounted_eq_none_iff.mp hnone i hi.le
    exact hne (heq.trans hzero)
  obtain ⟨r, hr⟩ := Option.ne_none_iff_exists'.mp hsome
  rw [insideStrcmp, strcmpLoop_eq_getD, hr, Option.getD_some]

/-- Strings that agree in more bytes than the countdown has are each less than the other. -/
theorem insideStrcmp_of_agree {p q : Chars} (h : ∀ i ≤ domainLen, p i = q i ∧ p i ≠ 0) :
    insideStrcmp (some p) (some q) = -1 ∧ insideStrcmp (some q) (some p) = -1 := by
  have hback : ∀ i ≤ domainLen, q i = p i ∧ q i ≠ 0 := fun i hi => ⟨(h i hi).1.symm, (h i hi).1 ▸ (h i hi).2⟩
  constructor
  · rw [insideStrcmp, strcmpLoop_eq_getD, strcmpUncounted_eq_none_iff.mpr h, Option.getD_none]
  · rw [insideStrcmp, strcmpLoop_eq_getD, strcmpUncounted_eq_none_iff.mpr hback, Option.getD_none]

/-- The comparison reports the lexicographic order of the signed bytes. -/
theorem insideStrcmp_reports :
    Reports (fun a b : Domain => insideStrcmp (some a.chars) (some b.chars)) fun a => signed (text a.chars) := by
  intro a b
  dsimp only
  rcases insideStrcmp_compares (p := a.chars) b.ends with ⟨hlt, hr⟩ | ⟨heq, hr⟩ | ⟨hgt, hr⟩
  · rw [hr, (cmp_eq_lt_iff _ _).mpr hlt]
    rfl
  · rw [hr, (cmp_eq_eq_iff _ _).mpr heq]
    rfl
  · rw [hr, (cmp_eq_gt_iff _ _).mpr hgt]
    rfl

/-- A strict total order: zero for equal strings only, negated the other way round, and transitive; and the
countdown decides nothing. -/
theorem insideStrcmp_strict_total_order (a b c : Domain) :
    (insideStrcmp (some a.chars) (some b.chars) = 0 ↔ text a.chars = text b.chars) ∧
    insideStrcmp (some b.chars) (some a.chars) = -insideStrcmp (some a.chars) (some b.chars) ∧
    (0 < insideStrcmp (some a.chars) (some b.chars) → 0 < insideStrcmp (some b.chars) (some c.chars) →
      0 < insideStrcmp (some a.chars) (some c.chars)) ∧
    strcmpUncounted domainLen a.chars b.chars = some (insideStrcmp (some a.chars) (some b.chars)) := by
  refine ⟨?_, insideStrcmp_reports.swap (a := a) (b := b), insideStrcmp_reports.trans (a := a) (b := b) (c := c),
    strcmpUncounted_eq b.ends⟩
  rw [← signed_injective.eq_iff]
  exact insideStrcmp_reports.eq_zero_iff (a := a) (b := b)

/-- `b` is greater than `ab`, and `ab` than `a`. -/
theorem insideStrcmp_strict_total_order_three : ∃ a b c : Domain,
    text a.chars = [0x62] ∧ text b.chars = [0x61, 0x62] ∧ text c.chars = [0x61] ∧
    insideStrcmp (some a.chars) (some b.chars) ≠ 0 ∧ insideStrcmp (some b.chars) (some a.chars) = -1 ∧
    0 < insideStrcmp (some a.chars) (some c.chars) ∧ strcmpUncounted domainLen a.chars b.chars = some 1 := by
  let a : Domain := ⟨fun i => [0x62].getD i 0, 1, by decide, rfl⟩
  let b : Domain := ⟨fun i => [0x61, 0x62].getD i 0, 2, by decide, rfl⟩
  let c : Domain := ⟨fun i => [0x61].getD i 0, 1, by decide, rfl⟩
  obtain ⟨hzero, hswap, htrans, hcount⟩ := insideStrcmp_strict_total_order a b c
  have hab : insideStrcmp (some a.chars) (some b.chars) = 1 := by decide
  have hbc : insideStrcmp (some b.chars) (some c.chars) = 1 := by decide
  refine ⟨a, b, c, by decide, by decide, by decide, fun heq => ?_, by rw [hswap, hab], ?_, hab ▸ hcount⟩
  · exact absurd (hzero.mp heq) (by decide)
  · exact htrans (hab ▸ Int.one_pos) (hbc ▸ Int.one_pos)

end SimpDserver.NetHashmap
