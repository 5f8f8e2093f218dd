import Mathlib.Algebra.BigOperators.Fin
import Mathlib.Algebra.Order.Monoid.Defs
import Mathlib.Data.Fintype.BigOperators
import Mathlib.Data.Multiset.OrderedMonoid
import Mathlib.Tactic.Abel
import Mathlib.Tactic.GCongr

/-!
# Lib — Tally

A tally `∑ i, F i (x i)` of a table `x`, in any commutative monoid, when one entry of the table
changes.  Nothing is subtracted: the old entry stands on the other side of the equation.  Where
the monoid is ordered, `tally_trade` exchanges the entry for another summand.
-/

namespace Xv6.Lib

open Function

variable {ι α M : Type*} [Fintype ι] [DecidableEq ι] [AddCommMonoid M]

/-- Two tallies that agree off `i`. -/
theorem tally_change {f g : ι → M} (i : ι) (h : ∀ j, j ≠ i → g j = f j) :
    ∑ j, g j + f i = ∑ j, f j + g i := by
  rw [← Finset.add_sum_erase _ g (Finset.mem_univ i), ← Finset.add_sum_erase _ f (Finset.mem_univ i),
    Finset.sum_congr rfl fun j hj => h j (Finset.ne_of_mem_erase hj)]
  abel

/-- Two tallies that agree off `i` and `k`. -/
theorem tally_change₂ {f g : ι → M} {i k : ι} (hik : i ≠ k) (h : ∀ j, j ≠ i → j ≠ k → g j = f j) :
    ∑ j, g j + (f i + f k) = ∑ j, f j + (g i + g k) := by
  have h₁ := tally_change (f := f) (g := update f i (g i)) i fun j hj => update_of_ne hj _ _
  have h₂ := tally_change (f := update f i (g i)) (g := g) k fun j hj => by
    by_cases e : j = i
    · rw [e, update_self]
    · rw [update_of_ne e]; exact h j e hj
  rw [update_self] at h₁
  rw [update_of_ne hik.symm] at h₂
  calc ∑ j, g j + (f i + f k) = ∑ j, g j + f k + f i := by abel
    _ = ∑ j, update f i (g i) j + f i + g k := by rw [h₂]; abel
    _ = ∑ j, f j + (g i + g k) := by rw [h₁]; abel

/-- One entry of a table is replaced. -/
theorem tally_update (F : ι → α → M) (x : ι → α) (i : ι) (a : α) :
    ∑ j, F j (update x i a j) + F i (x i) = ∑ j, F j (x j) + F i a := by
  have h := tally_change (f := fun j => F j (x j)) (g := fun j => F j (update x i a j)) i
    fun j hj => by simp only [update_of_ne hj]
  simpa only [update_self] using h

section Ordered

variable {N : Type*} [AddCommMonoid N] [PartialOrder N] [IsOrderedCancelAddMonoid N]

/-- A tally whose entry `s` became `s'`, beside a part `f` that became `f'`: if these two together
did not grow, the whole did not. -/
theorem tally_trade {f f' s s' P P' : N} (S : N) (hc : P' + s = P + s') (hle : f' + s' ≤ f + s) :
    f' + (P' + S) ≤ f + (P + S) := by
  refine le_of_add_le_add_right (a := s) ?_
  calc f' + (P' + S) + s = f' + (P' + s) + S := by abel
    _ = f' + s' + (P + S) := by rw [hc]; abel
    _ ≤ f + s + (P + S) := by gcongr
    _ = f + (P + S) + s := by abel

end Ordered

omit [DecidableEq ι] in
/-- A tally of multisets has `x` at most once, if each entry has and no two entries have it. -/
theorem count_tally_le_one [DecidableEq α] {f : ι → Multiset α} {x : α}
    (h₁ : ∀ i, (f i).count x ≤ 1) (h₂ : ∀ i j, x ∈ f i → x ∈ f j → i = j) :
    (∑ i, f i).count x ≤ 1 := by
  rw [Multiset.count_sum']
  by_cases h : ∃ i, x ∈ f i
  · obtain ⟨i, hi⟩ := h
    rw [Finset.sum_eq_single i]
    · exact h₁ i
    · exact fun j _ hj => Multiset.count_eq_zero.mpr fun hx => hj (h₂ j i hx hi)
    · exact fun hi => absurd (Finset.mem_univ i) hi
  · rw [Finset.sum_eq_zero fun i _ => Multiset.count_eq_zero.mpr fun hi => h ⟨i, hi⟩]
    exact Nat.zero_le 1

end Xv6.Lib
