/-!
# Bounded counts

Costs and extents are natural numbers that have to fit in 64 bits. Arithmetic on them never wraps:
an operation whose exact result does not fit has no result.

* `Checked.limit` is the largest count, `2 ^ 64 - 1`.
* `Checked.add?` and `Checked.mul?` give the exact result, or `none` when it exceeds the limit.
* `Checked.product?` multiplies a list from the left and stops at the first partial product that
  does not fit.

Results:
* `fit?_eq_some_iff`, `fit?_eq_none_iff`: a count is kept iff it fits.
* `add?_eq_some_iff`, `mul?_eq_some_iff`: a result is the exact one, and there is one iff it fits.
-/

namespace TensorCost.Checked

/-- The largest count: 64 bits, all set. -/
def limit : Nat := 0xFFFF_FFFF_FFFF_FFFF

/-- A count that fits is kept as it is. -/
def fit? (n : Nat) : Option Nat :=
  if n ≤ limit then some n else none

/-- The sum of two counts, if it fits. -/
def add? (a b : Nat) : Option Nat := fit? (a + b)

/-- The product of two counts, if it fits. -/
def mul? (a b : Nat) : Option Nat := fit? (a * b)

/-- The product of a list of counts; the empty product is 1. -/
def product? (ns : List Nat) : Option Nat := ns.foldlM mul? 1

theorem fit?_eq_some_iff {n m : Nat} : fit? n = some m ↔ n = m ∧ n ≤ limit := by
  unfold fit?
  split
  next h => simp [h]
  next h => simp [h]

theorem fit?_eq_none_iff {n : Nat} : fit? n = none ↔ limit < n := by
  unfold fit?
  split
  next h => simp [h]
  next h => simp [Nat.lt_of_not_le h]

theorem add?_eq_some_iff {a b c : Nat} : add? a b = some c ↔ a + b = c ∧ a + b ≤ limit :=
  fit?_eq_some_iff

theorem add?_eq_none_iff {a b : Nat} : add? a b = none ↔ limit < a + b := fit?_eq_none_iff

theorem mul?_eq_some_iff {a b c : Nat} : mul? a b = some c ↔ a * b = c ∧ a * b ≤ limit :=
  fit?_eq_some_iff

end TensorCost.Checked
