import Mathlib.Order.Compare
import Mathlib.Tactic

/-!
# Three-way comparisons

A comparison function in the manner of C reports a linear order by the sign of its result. What is compared
is a key of the arguments, so what the function calls equal are arguments with one key.
-/

namespace ThreeWay

/-- The result for an ordering. -/
def report : Ordering → Int
  | .lt => -1
  | .eq => 0
  | .gt => 1

theorem report_swap (o : Ordering) : report o.swap = -report o := by
  cases o <;> rfl

theorem report_eq_zero {o : Ordering} : report o = 0 ↔ o = .eq := by
  cases o <;> decide

theorem report_pos {o : Ordering} : 0 < report o ↔ o = .gt := by
  cases o <;> decide

variable {κ α : Type*} [LinearOrder α]

/-- `f` reports how the keys compare. -/
def Reports (f : κ → κ → Int) (key : κ → α) : Prop := ∀ a b, f a b = report (cmp (key a) (key b))

variable {f : κ → κ → Int} {key : κ → α} (h : Reports f key) {a b c : κ}
include h

theorem Reports.eq_zero_iff : f a b = 0 ↔ key a = key b := by
  rw [h a b, report_eq_zero, cmp_eq_eq_iff]

theorem Reports.pos_iff : 0 < f a b ↔ key b < key a := by
  rw [h a b, report_pos, cmp_eq_gt_iff]

theorem Reports.swap : f b a = -f a b := by
  rw [h b a, h a b, ← report_swap, cmp_swap]

theorem Reports.trans (hab : 0 < f a b) (hbc : 0 < f b c) : 0 < f a c := by
  rw [h.pos_iff] at hab hbc ⊢
  exact hbc.trans hab

end ThreeWay
