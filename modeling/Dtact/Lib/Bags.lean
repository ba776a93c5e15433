import Mathlib.Algebra.BigOperators.Group.Multiset.Basic
import Mathlib.Algebra.Order.BigOperators.Group.Finset
import Mathlib.Data.Fintype.Basic
import Mathlib.Tactic.Abel

/-!
# Families of lists and what they hold in all

A system of containers is a family `m : ι → List α`. `total m` is the multiset
of everything in it. Operations that touch one container are `Function.update`;
`put` appends to one container. `sum_update` and its instance `total_update` are
the rules all conservation arguments use.
-/

namespace Bags

variable {ι α : Type} [DecidableEq ι] [Fintype ι]

def total (m : ι → List α) : Multiset α := ∑ i, (m i : Multiset α)

def put (m : ι → List α) (i : ι) (xs : List α) : ι → List α := Function.update m i (m i ++ xs)

omit [Fintype ι] in
/-- Changing one member changes the sum by the difference. -/
theorem sum_update {β M : Type} [AddCommMonoid M] {s : Finset ι} (f : ι → β) (F : β → M) {i : ι}
    (hi : i ∈ s) (x : β) :
    ∑ j ∈ s, F (Function.update f i x j) + F (f i) = ∑ j ∈ s, F (f j) + F x := by
  have h₁ : ∑ j ∈ s, F (Function.update f i x j) = F x + ∑ j ∈ s.erase i, F (f j) := by
    rw [← Finset.add_sum_erase _ _ hi, Function.update_self]
    refine congrArg _ (Finset.sum_congr rfl fun j hj => ?_)
    rw [Function.update_of_ne (Finset.ne_of_mem_erase hj)]
  rw [h₁, ← Finset.add_sum_erase s (fun j => F (f j)) hi]
  abel

omit [Fintype ι] in
/-- The same when the other members may only shrink. -/
theorem sum_update_le {β : Type} {s : Finset ι} {f g : ι → β} {F : β → ℕ} {i : ι} (hi : i ∈ s)
    (hle : ∀ j, F (g j) ≤ F (f j)) (x : β) :
    ∑ j ∈ s, F (Function.update g i x j) + F (f i) ≤ ∑ j ∈ s, F (f j) + F x := by
  rw [← sum_update f F hi x]
  refine Nat.add_le_add_right (Finset.sum_le_sum fun j _ => ?_) _
  by_cases hj : j = i
  · rw [hj, Function.update_self, Function.update_self]
  · rw [Function.update_of_ne hj, Function.update_of_ne hj]
    exact hle j

/-- Changing one container changes the total by the difference. -/
theorem total_update (m : ι → List α) (i : ι) (l : List α) :
    total (Function.update m i l) + (m i : Multiset α) = total m + l :=
  sum_update m _ (Finset.mem_univ i) l

theorem le_total (m : ι → List α) (i : ι) : (m i : Multiset α) ≤ total m := by
  have hu := total_update m i []
  rw [Multiset.coe_nil, add_zero] at hu
  rw [← hu]
  exact Multiset.le_add_left ..

theorem mem_total {m : ι → List α} {i : ι} {a : α} (h : a ∈ m i) : a ∈ total m :=
  Multiset.mem_of_le (le_total m i) h

theorem total_put (m : ι → List α) (i : ι) (xs : List α) :
    total (put m i xs) = total m + xs := by
  have h := total_update m i (m i ++ xs)
  rw [← Multiset.coe_add, ← add_assoc, add_right_comm] at h
  exact add_right_cancel h

theorem total_take {m : ι → List α} {i : ι} (xs : List α) {l : List α} (h : m i = xs ++ l) :
    total (Function.update m i l) + (xs : Multiset α) = total m := by
  have hu := total_update m i l
  rw [h, ← Multiset.coe_add, ← add_assoc] at hu
  exact add_right_cancel hu

end Bags
