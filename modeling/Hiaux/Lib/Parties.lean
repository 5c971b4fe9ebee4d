import Mathlib.Algebra.BigOperators.Intervals
import Mathlib.Algebra.Order.Group.Multiset
import Mathlib.Tactic.Abel

/-!
# `Lib.Parties` — what is spread over parties

A system of many parties often keeps in one place what belongs to all of them: a queue of everybody's tasks,
a count over everybody's states. Such a place is a sum over the parties, each contributing what its own state
says. When one party changes its state, the place changes by the difference of its two contributions
(`sum_move`); what is found in the place is some party's (`exists_mem_of_sum`).
-/

namespace Lib

variable {M τ : Type} {f g : Nat → M} {n i : Nat}

/-- Two sums that differ in one summand. -/
theorem sum_change [AddCommMonoid M] (hi : i < n) (hother : ∀ j, j ≠ i → g j = f j) :
    ∑ j ∈ Finset.range n, f j + g i = ∑ j ∈ Finset.range n, g j + f i := by
  have hmem := Finset.mem_range.mpr hi
  have hrest : ∑ j ∈ (Finset.range n).erase i, g j = ∑ j ∈ (Finset.range n).erase i, f j :=
    Finset.sum_congr rfl fun j hj => hother j (Finset.ne_of_mem_erase hj)
  rw [← Finset.add_sum_erase _ f hmem, ← Finset.add_sum_erase _ g hmem, hrest]
  abel

/-- **One party moves**: the place gives up what the party contributed and takes what it contributes now. -/
theorem sum_move [AddCancelCommMonoid M] {t t' : M} (h : t = ∑ j ∈ Finset.range n, f j) (hi : i < n)
    (hother : ∀ j, j ≠ i → g j = f j) (hmove : t' + f i = t + g i) : t' = ∑ j ∈ Finset.range n, g j := by
  rw [h, sum_change hi hother] at hmove
  exact add_right_cancel hmove

/-- **What is found** is some party's. -/
theorem exists_mem_of_sum {f : Nat → Multiset τ} {t : Multiset τ} (h : t = ∑ j ∈ Finset.range n, f j) {x : τ}
    (hx : x ∈ t) : ∃ j < n, x ∈ f j := by
  rw [h] at hx
  obtain ⟨j, hj, hx⟩ := Multiset.mem_sum.mp hx
  exact ⟨j, Finset.mem_range.mp hj, hx⟩

/-- An empty place: no party contributes. -/
theorem eq_zero_of_sum {f : Nat → Multiset τ} (h : 0 = ∑ j ∈ Finset.range n, f j) (hi : i < n) : f i = 0 := by
  refine Multiset.eq_zero_of_forall_notMem fun x hx => ?_
  have hmem : x ∈ ∑ j ∈ Finset.range n, f j := Multiset.mem_sum.mpr ⟨i, Finset.mem_range.mpr hi, hx⟩
  rw [← h] at hmem
  exact Multiset.notMem_zero x hmem

/-- Taking one element out of a list. -/
theorem coe_eraseIdx {l : List τ} {k : Nat} {x : τ} (h : l[k]? = some x) :
    ((l.eraseIdx k : List τ) : Multiset τ) + {x} = l := by
  obtain ⟨hk, rfl⟩ := List.getElem?_eq_some_iff.mp h
  rw [add_comm, Multiset.singleton_add, Multiset.cons_coe]
  exact Multiset.coe_eq_coe.mpr (List.getElem_cons_eraseIdx_perm hk)

end Lib
