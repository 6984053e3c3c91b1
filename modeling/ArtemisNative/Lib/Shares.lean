/-
ArtemisNative/Lib/Shares.lean

Sums to which every party contributes a share.

A transition changes the share of one party.  Then the sum changes by what that
share changes: `sum_shares_of_mem` for a finite set of parties, `sum_shares` for a
finite type of them, `sum_map_set` for the entries of a list.
-/
import Mathlib.Algebra.BigOperators.Group.Finset.Basic
import Mathlib.Algebra.BigOperators.Group.List.Basic
import Mathlib.Algebra.Order.Ring.Int

/-- A sum over some parties, when the share of one of them changes. -/
theorem sum_shares_of_mem {ι : Type*} [DecidableEq ι] {f g : ι → ℤ} {S : Finset ι} {i : ι}
    (hi : i ∈ S) (h : ∀ j, j ≠ i → g j = f j) :
    ∑ j ∈ S, g j = ∑ j ∈ S, f j - f i + g i := by
  have hf := Finset.add_sum_erase S f hi
  have hg := Finset.add_sum_erase S g hi
  have hrest : ∑ j ∈ S.erase i, g j = ∑ j ∈ S.erase i, f j :=
    Finset.sum_congr rfl fun j hj => h j (Finset.ne_of_mem_erase hj)
  omega

/-- A sum over all parties, when the share of one of them changes. -/
theorem sum_shares {ι : Type*} [Fintype ι] [DecidableEq ι] {f g : ι → ℤ} (i : ι)
    (h : ∀ j, j ≠ i → g j = f j) : ∑ j, g j = ∑ j, f j - f i + g i :=
  sum_shares_of_mem (Finset.mem_univ i) h

/-- A sum over a list, when one entry changes. -/
theorem sum_map_set {α : Type*} (f : α → ℤ) {xs : List α} {k : ℕ} {a : α} (b : α)
    (h : xs[k]? = some a) : ((xs.set k b).map f).sum = (xs.map f).sum - f a + f b := by
  induction xs generalizing k with
  | nil => simp at h
  | cons x xs ih =>
    cases k with
    | zero =>
      obtain rfl := Option.some.inj h
      simp only [List.set_cons_zero, List.map_cons, List.sum_cons]
      omega
    | succ k =>
      simp only [List.set_cons_succ, List.map_cons, List.sum_cons, ih h]
      omega
