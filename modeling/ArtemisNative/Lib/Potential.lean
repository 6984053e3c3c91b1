/-
ArtemisNative/Lib/Potential.lean

Potentials of a transition system.

Some labels are work: each uses up a unit of a potential that is a natural
number.  Others may add to it.

* `Run.work_le` is the account of a whole run: work done and potential left are
  covered by the potential at the start and by what was added on the way.
* `exists_rests`, `Run.length_le`: if only work is done, it comes to an end, in a
  state where no more of it is possible (`Rests`), after a bounded number of steps.
* `Run.spent` is the account of a balance that every marked step draws one from
  and that no other step touches.
-/
import ArtemisNative.Lib.Transition

namespace Transition

variable {σ ℓ : Type*} {next : σ → ℓ → Option σ} {P : σ → ℓ → Prop}
variable {s s' : σ} {ls : List ℓ}

/-- What the labels of a run add, each in the state it is taken from. -/
def total (next : σ → ℓ → Option σ) (grant : σ → ℓ → ℕ) (s : σ) : List ℓ → ℕ
  | [] => 0
  | l :: ls =>
    match next s l with
    | none => 0
    | some s' => grant s l + total next grant s' ls

/-- What is added by two kinds of labels. -/
theorem total_add (grant grant' : σ → ℓ → ℕ) :
    total next (fun s l => grant s l + grant' s l) s ls =
      total next grant s ls + total next grant' s ls := by
  induction ls generalizing s with
  | nil => rfl
  | cons l ls ih =>
    simp only [total]
    cases next s l with
    | none => rfl
    | some s' =>
      show _ + total next _ s' ls = _ + total next grant s' ls + (_ + total next grant' s' ls)
      rw [ih]
      omega

/-- What is added if every marked label adds `n`. -/
theorem total_mark (mark : σ → ℓ → Bool) (n : ℕ) :
    total next (fun s l => if mark s l then n else 0) s ls = n * tally next mark s ls := by
  induction ls generalizing s with
  | nil => rfl
  | cons l ls ih =>
    simp only [total, tally]
    cases next s l with
    | none => rfl
    | some s' =>
      show _ + total next _ s' ls = n * (_ + tally next mark s' ls)
      rw [ih, Nat.mul_add]
      split
      · rw [Nat.mul_one]
      · rw [Nat.mul_zero]

/-- The work of a run is covered by the potential at its start and by what was
added on the way. -/
theorem Run.work_le {I : σ → Prop} (work : σ → ℓ → Bool) (grant : σ → ℓ → ℕ) (rank : σ → ℕ)
    (h : Run next P s ls s') (h₀ : I s)
    (hstep : ∀ s l s', I s → P s l → next s l = some s' →
      I s' ∧ rank s' + (if work s l then 1 else 0) ≤ rank s + grant s l) :
    rank s' + tally next work s ls ≤ rank s + total next grant s ls := by
  induction h with
  | nil => exact le_rfl
  | cons hP hn _ ih =>
    obtain ⟨hI, hle⟩ := hstep _ _ _ h₀ hP hn
    have ih := ih hI
    simp only [tally, total, hn]
    omega

/-- A run in which every step uses up some of the potential is no longer than it. -/
theorem Run.length_le {I : σ → Prop} (rank : σ → ℕ) (h : Run next P s ls s') (h₀ : I s)
    (hstep : ∀ s l s', I s → P s l → next s l = some s' → I s' ∧ rank s' < rank s) :
    rank s' + ls.length ≤ rank s := by
  induction h with
  | nil => exact le_rfl
  | cons hP hn _ ih =>
    obtain ⟨hI, hlt⟩ := hstep _ _ _ h₀ hP hn
    have ih := ih hI
    rw [List.length_cons]
    omega

/-- No step under `P` is possible. -/
def Rests (next : σ → ℓ → Option σ) (P : σ → ℓ → Prop) (s : σ) : Prop :=
  ∀ l s', P s l → next s l ≠ some s'

/-- Steps that use up the potential lead to a state of rest. -/
theorem exists_rests {I : σ → Prop} (rank : σ → ℕ) (h₀ : I s)
    (hstep : ∀ s l s', I s → P s l → next s l = some s' → I s' ∧ rank s' < rank s) :
    ∃ s', Reaches next P s s' ∧ Rests next P s' ∧ I s' := by
  -- by induction on the potential that is left
  induction hn : rank s using Nat.strong_induction_on generalizing s with
  | _ n ih =>
    by_cases hrest : Rests next P s
    · exact ⟨s, .refl s, hrest, h₀⟩
    · simp only [Rests, not_forall, not_not] at hrest
      obtain ⟨l, s₁, hP, hs₁⟩ := hrest
      obtain ⟨hI, hlt⟩ := hstep _ _ _ h₀ hP hs₁
      obtain ⟨s', hr, hrests, hI'⟩ := ih (rank s₁) (hn ▸ hlt) hI rfl
      exact ⟨s', .head hP hs₁ hr, hrests, hI'⟩

/-- A balance that the marked steps draw from, one each. -/
theorem Run.spent {I : σ → Prop} (mark : σ → ℓ → Bool) (balance : σ → ℤ)
    (h : Run next P s ls s') (h₀ : I s)
    (hstep : ∀ s l s', I s → P s l → next s l = some s' →
      I s' ∧ balance s' + (if mark s l then 1 else 0) = balance s) :
    balance s' + tally next mark s ls = balance s := by
  induction h with
  | nil => exact add_zero _
  | @cons s l s₁ ls s' hP hn _ ih =>
    obtain ⟨hI, heq⟩ := hstep _ _ _ h₀ hP hn
    have ih := ih hI
    simp only [tally, hn]
    split at heq <;> rename_i hmark <;> simp only [hmark, ↓reduceIte, Bool.false_eq_true] <;>
      push_cast <;> omega

end Transition
