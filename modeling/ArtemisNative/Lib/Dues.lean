/-
ArtemisNative/Lib/Dues.lean

Accounts that are settled while others are.

Each account of a family is a list of what has been paid, beside a list of what is due so
far.  A step lets something fall due on one account, and pays at most that.  So an account
that is behind stays behind: what was left out is never made up for, and in the end all
accounts are settled just if every step paid what it owed (`Behind.eq_iff`).

`inTurn` is what is due where the accounts are served one after the other.
-/
import Mathlib.Data.List.Basic

namespace Dues

variable {ι α : Type*} {paid due paid' due' : ι → List α} {i₀ : ι} {δ δ' : List α}

/-- No account is ahead. -/
def Behind (paid due : ι → List α) : Prop := ∀ i, (paid i).Sublist (due i)

/-- On account `i₀`, `δ'` falls due, and of that `δ` is paid. -/
structure Step (paid due paid' due' : ι → List α) (i₀ : ι) (δ δ' : List α) : Prop where
  paid_at : paid' i₀ = paid i₀ ++ δ
  due_at : due' i₀ = due i₀ ++ δ'
  paid_of_ne : ∀ i, i ≠ i₀ → paid' i = paid i
  due_of_ne : ∀ i, i ≠ i₀ → due' i = due i
  le : δ.Sublist δ'

theorem Behind.step (h : Behind paid due) (hs : Step paid due paid' due' i₀ δ δ') :
    Behind paid' due' := by
  intro i
  by_cases hi : i = i₀
  · subst hi
    rw [hs.paid_at, hs.due_at]
    exact (h i).append hs.le
  · rw [hs.paid_of_ne i hi, hs.due_of_ne i hi]
    exact h i

/-- **What is left out is not made up for.** -/
theorem Behind.eq_iff (h : Behind paid due) (hs : Step paid due paid' due' i₀ δ δ') :
    paid' = due' ↔ paid = due ∧ δ = δ' := by
  constructor
  · intro heq
    -- neither part can be shorter than what is due
    have hat : paid i₀ ++ δ = due i₀ ++ δ' := by
      rw [← hs.paid_at, ← hs.due_at, heq]
    have hlen := congrArg List.length hat
    rw [List.length_append, List.length_append] at hlen
    have hle := (h i₀).length_le
    have hle' := hs.le.length_le
    obtain ⟨heq₀, hδ⟩ := List.append_inj hat (by omega)
    refine ⟨?_, hδ⟩
    funext i
    by_cases hi : i = i₀
    · subst hi
      exact heq₀
    · rw [← hs.paid_of_ne i hi, ← hs.due_of_ne i hi, heq]
  · rintro ⟨rfl, rfl⟩
    funext i
    by_cases hi : i = i₀
    · subst hi
      rw [hs.paid_at, hs.due_at]
    · rw [hs.paid_of_ne i hi, hs.due_of_ne i hi]

/-! ### One after the other -/

variable {n j : ℕ} {part part' full : List α}

/-- What is due on the `j`-th account while the `n`-th is served: those before it are due in
full. -/
def inTurn (n : ℕ) (part full : List α) (j : ℕ) : List α :=
  if j < n then full else if j = n then part else []

theorem inTurn_of_lt (h : j < n) : inTurn n part full j = full := if_pos h

@[simp]
theorem inTurn_self : inTurn n part full n = part := by
  rw [inTurn, if_neg (Nat.lt_irrefl n), if_pos rfl]

theorem inTurn_of_gt (h : n < j) : inTurn n part full j = [] := by
  rw [inTurn, if_neg (by omega), if_neg (by omega)]

/-- The others are not concerned. -/
theorem inTurn_of_ne (h : j ≠ n) : inTurn n part full j = inTurn n part' full j := by
  rw [inTurn, inTurn, if_neg h, if_neg h]

/-- The next one is served when this one is due in full. -/
theorem inTurn_succ : inTurn (n + 1) [] full j = inTurn n full full j := by
  rcases Nat.lt_trichotomy j n with h | rfl | h
  · rw [inTurn_of_lt h, inTurn_of_lt (by omega)]
  · rw [inTurn_self, inTurn_of_lt (Nat.lt_succ_self j)]
  · rw [inTurn_of_gt h, inTurn]
    split
    · omega
    · exact ite_self []

end Dues
