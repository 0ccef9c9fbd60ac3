import Mathlib.Algebra.BigOperators.Group.List.Basic
import Mathlib.Algebra.BigOperators.Group.List.Lemmas
import Mathlib.Algebra.Order.BigOperators.GroupWithZero.List
import Mathlib.Algebra.Order.Ring.Nat
import TensorCost.Index

/-!
# Products of extents

The extents of a loop nest are multiplied up from the left, and multiplying stops at the first
partial product that does not fit. A product that went through zero could fit in one order and not
in another. A loop runs at least once, though, so partial products only grow: none of them is larger
than the exact product, and it alone tells whether all of them fit.

Results:
* `foldlM_mul?_eq_some_iff`: positive factors can be multiplied up iff the exact product fits.
* `Index.extentProduct_eq_some_iff`: a product of extents is answered iff the exact product fits.
* `Index.extentProduct_exact`: the answer is the exact product, in whatever order the extents are
  given, and a nest that is too large stays so when loops are added.
-/

namespace TensorCost

/-- Positive factors make partial products grow, so the exact product tells whether they all fit. -/
theorem foldlM_mul?_eq_some_iff {ns : List Nat} (hpos : ∀ n ∈ ns, 0 < n) {a m : Nat}
    (ha : a ≤ Checked.limit) :
    ns.foldlM Checked.mul? a = some m ↔ a * ns.prod = m ∧ a * ns.prod ≤ Checked.limit := by
  induction ns generalizing a with
  | nil =>
    rw [List.prod_nil, Nat.mul_one, and_iff_left ha]
    exact Option.some_inj
  | cons n ns ih =>
    obtain ⟨-, hpos'⟩ := List.forall_mem_cons.mp hpos
    rw [List.foldlM_cons, Option.bind_eq_bind, Option.bind_eq_some_iff, List.prod_cons,
      ← Nat.mul_assoc]
    constructor
    · rintro ⟨b, hb, hrest⟩
      obtain ⟨rfl, hle⟩ := Checked.mul?_eq_some_iff.mp hb
      exact (ih hpos' hle).mp hrest
    · rintro ⟨hm, hle⟩
      -- the partial product is no larger than the exact one
      have hpartial : a * n ≤ Checked.limit :=
        (Nat.le_mul_of_pos_right _ (List.prod_pos hpos')).trans hle
      exact ⟨_, Checked.mul?_eq_some_iff.mpr ⟨rfl, hpartial⟩, (ih hpos' hpartial).mpr ⟨hm, hle⟩⟩

namespace Index

variable {is js : List Index} {n : Nat}

theorem forall_extent_pos (is : List Index) : ∀ n ∈ is.map extent, 0 < n := by
  intro n hn
  obtain ⟨i, -, rfl⟩ := List.mem_map.mp hn
  exact i.extent_pos

theorem prod_extent_pos (is : List Index) : 0 < (is.map extent).prod :=
  List.prod_pos (forall_extent_pos is)

/-- **A product of extents** is answered iff the exact product fits. -/
theorem extentProduct_eq_some_iff : extentProduct is = some n ↔
    (is.map extent).prod = n ∧ (is.map extent).prod ≤ Checked.limit := by
  rw [extentProduct, Checked.product?,
    foldlM_mul?_eq_some_iff (forall_extent_pos is) (by decide), Nat.one_mul]

theorem extentProduct_eq_none_iff :
    extentProduct is = none ↔ Checked.limit < (is.map extent).prod := by
  rw [Option.eq_none_iff_forall_ne_some]
  simp only [ne_eq, extentProduct_eq_some_iff, not_and, Nat.not_le]
  exact ⟨fun h => h _ rfl, fun h n _ => h⟩

/-- The product of the extents does not depend on their order. -/
theorem prod_extent_perm (h : js.Perm is) : (js.map extent).prod = (is.map extent).prod :=
  (h.map extent).prod_eq

/-- Adding loops to a nest makes no product smaller. -/
theorem prod_extent_le (h : is.Subperm js) : (is.map extent).prod ≤ (js.map extent).prod := by
  obtain ⟨ks, hperm, hsub⟩ := h
  have hdvd : (ks.map extent).prod ∣ (js.map extent).prod := (hsub.map extent).prod_dvd_prod
  rw [← prod_extent_perm hperm]
  exact Nat.le_of_dvd (prod_extent_pos js) hdvd

/-- **Products of extents are exact.** The product of the extents of some indices is one at least.
It is what `extentProduct` answers if it fits, and there is no answer iff it does not fit. So the
order of the indices makes no difference, neither to the answer nor to whether there is one, and if
there is none then there is none for any indices among which these are, each as often at least. -/
theorem extentProduct_exact (is : List Index) :
    1 ≤ (is.map extent).prod ∧
    (∀ n, extentProduct is = some n ↔
      (is.map extent).prod = n ∧ (is.map extent).prod ≤ 0xFFFF_FFFF_FFFF_FFFF) ∧
    (extentProduct is = none ↔ 0xFFFF_FFFF_FFFF_FFFF < (is.map extent).prod) ∧
    (∀ js, js.Perm is → extentProduct js = extentProduct is) ∧
    ∀ js, is.Subperm js → extentProduct is = none → extentProduct js = none := by
  refine ⟨prod_extent_pos is, fun n => extentProduct_eq_some_iff, extentProduct_eq_none_iff,
    fun js hperm => ?_, fun js hsub hnone => ?_⟩
  · refine Option.ext fun n => ?_
    rw [extentProduct_eq_some_iff, extentProduct_eq_some_iff, prod_extent_perm hperm]
  · rw [extentProduct_eq_none_iff] at hnone ⊢
    exact Nat.lt_of_lt_of_le hnone (prod_extent_le hsub)

end Index

end TensorCost
