import Mathlib.Algebra.BigOperators.Group.Finset.Basic
import Mathlib.Algebra.Order.BigOperators.Group.Finset

/-!
# Sums over a table of which one entry changes

Counters that are shared between the owners of a table are specified by a sum over it.
When one owner acts, the sum moves by what its own entry moves by.
-/

namespace TableSum

universe u v

variable {ι : Type u} {M : Type v} [Fintype ι] [DecidableEq ι]

theorem sum_of_eq_off [AddCommGroup M] {f g : ι → M} (i : ι) (h : ∀ j, j ≠ i → g j = f j) :
    ∑ j, g j = ∑ j, f j - f i + g i := by
  have hrest : ∑ j ∈ Finset.univ.erase i, g j = ∑ j ∈ Finset.univ.erase i, f j :=
    Finset.sum_congr rfl fun j hj => h j (Finset.ne_of_mem_erase hj)
  rw [← Finset.add_sum_erase Finset.univ g (Finset.mem_univ i),
    ← Finset.add_sum_erase Finset.univ f (Finset.mem_univ i), hrest]
  rw [add_sub_cancel_left, add_comm]

theorem add_le_sum [AddCommMonoid M] [PartialOrder M] [IsOrderedAddMonoid M] {f : ι → M}
    (hf : ∀ j, 0 ≤ f j) {i j : ι} (hij : i ≠ j) : f i + f j ≤ ∑ l, f l := by
  rw [← Finset.sum_pair hij]
  exact Finset.sum_le_sum_of_subset_of_nonneg (Finset.subset_univ _) fun l _ _ => hf l

end TableSum
