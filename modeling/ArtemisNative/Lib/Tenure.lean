/-
ArtemisNative/Lib/Tenure.lean

Resources that are acquired, used and released.

A list of uses is run from the set of the resources that are live: nothing is acquired
that is live, nothing is touched or released that is not.  `after` is the set that is
live behind the list, and `none` a fault: a second acquisition, a use before the
acquisition or behind the release, a second release.  So "no fault" is the absence of
all of these, and "nothing is live in the end" that of leaks; `after_balance` counts.

`emitted` puts together what the labels of a run do, and `Run.tenure` makes an account
of every state, kept by each step, into one of a whole run.
-/
import ArtemisNative.Lib.Transition
import Mathlib.Data.Finset.Basic
import Mathlib.Data.Finset.Lattice.Lemmas
import Mathlib.Data.Finset.Dedup

/-- What a piece of code does with a resource. -/
inductive Use (α : Type*)
  | acquire (r : α)
  | touch (r : α)
  | release (r : α)
  deriving DecidableEq

namespace Use

variable {α : Type*} [DecidableEq α] {L L' : Finset α} {us vs : List (Use α)}
variable {rs : List α} {r : α}

/-! ### Running a list of uses -/

/-- The resources that are live behind one use. -/
def behind (L : Finset α) : Use α → Option (Finset α)
  | .acquire r => if r ∈ L then none else some (insert r L)
  | .touch r => if r ∈ L then some L else none
  | .release r => if r ∈ L then some (L.erase r) else none

def after (L : Finset α) : List (Use α) → Option (Finset α)
  | [] => some L
  | u :: us =>
    match u.behind L with
    | none => none
    | some L' => after L' us

theorem after_cons (u : Use α) : after L (u :: us) = (u.behind L).bind fun L' => after L' us := by
  rw [after]
  cases u.behind L <;> rfl

theorem after_append (us vs : List (Use α)) :
    after L (us ++ vs) = (after L us).bind fun L' => after L' vs := by
  induction us generalizing L with
  | nil => rfl
  | cons u us ih =>
    rw [List.cons_append, after_cons, after_cons, Option.bind_assoc]
    congr 1
    funext L'
    exact ih

/-- One list of uses behind the other. -/
theorem after_trans {L'' : Finset α} (h : after L us = some L') (h' : after L' vs = some L'') :
    after L (us ++ vs) = some L'' := by
  rw [after_append, h]
  exact h'

theorem after_touch (h : ∀ r ∈ rs, r ∈ L) : after L (rs.map .touch) = some L := by
  induction rs with
  | nil => rfl
  | cons r rs ih =>
    rw [List.map_cons, after_cons, behind, if_pos (h r List.mem_cons_self)]
    exact ih fun r' hr' => h r' (List.mem_cons_of_mem _ hr')

theorem after_touch_one (h : r ∈ L) : after L [.touch r] = some L := by
  rw [after_cons, behind, if_pos h]
  rfl

theorem after_acquire (hnd : rs.Nodup) (h : ∀ r ∈ rs, r ∉ L) :
    after L (rs.map .acquire) = some (rs.toFinset ∪ L) := by
  induction rs generalizing L with
  | nil => simp [after]
  | cons r rs ih =>
    obtain ⟨hr, hnd⟩ := List.nodup_cons.mp hnd
    rw [List.map_cons, after_cons, behind, if_neg (h r List.mem_cons_self)]
    show after (insert r L) _ = _
    rw [ih hnd fun r' hr' => ?_]
    · rw [List.toFinset_cons, Finset.insert_union, Finset.union_insert]
    · rw [Finset.mem_insert, not_or]
      refine ⟨?_, h r' (List.mem_cons_of_mem _ hr')⟩
      rintro rfl
      exact hr hr'

/-- One resource after the other is released; some are touched before each. -/
theorem after_release {held : List α} (hnd : rs.Nodup) (h : ∀ r ∈ rs, r ∈ L)
    (hheld : ∀ r ∈ held, r ∈ L ∧ r ∉ rs) :
    after L (rs.flatMap fun r => held.map .touch ++ [.release r]) = some (L \ rs.toFinset) := by
  induction rs generalizing L with
  | nil => simp [after]
  | cons r rs ih =>
    obtain ⟨hr, hnd⟩ := List.nodup_cons.mp hnd
    have hone : after L (held.map .touch ++ [.release r]) = some (L.erase r) := by
      apply after_trans (after_touch fun r' hr' => (hheld r' hr').1)
      rw [after_cons, behind, if_pos (h r List.mem_cons_self)]
      rfl
    rw [List.flatMap_cons]
    apply after_trans hone
    rw [ih hnd (fun r' hr' => ?_) fun r' hr' => ?_]
    · rw [List.toFinset_cons, Finset.sdiff_insert, Finset.erase_sdiff_comm]
    · refine Finset.mem_erase.mpr ⟨?_, h r' (List.mem_cons_of_mem _ hr')⟩
      rintro rfl
      exact hr hr'
    · obtain ⟨hL, hno⟩ := hheld r' hr'
      refine ⟨Finset.mem_erase.mpr ⟨?_, hL⟩, fun hmem => hno (List.mem_cons_of_mem _ hmem)⟩
      rintro rfl
      exact hno List.mem_cons_self

theorem after_releases (hnd : rs.Nodup) (h : ∀ r ∈ rs, r ∈ L) :
    after L (rs.map .release) = some (L \ rs.toFinset) := by
  have hall : after L (rs.flatMap fun r => ([] : List α).map .touch ++ [.release r]) =
      some (L \ rs.toFinset) := after_release hnd h fun r hr => absurd hr List.not_mem_nil
  rwa [show (rs.flatMap fun r => ([] : List α).map Use.touch ++ [.release r]) =
    rs.map .release from List.flatMap_pure_eq_map ..] at hall

/-- A list without a fault acquires every resource as often as it releases it, but for
those that are live in the end and were not at the start. -/
theorem after_balance (h : after L us = some L') (r : α) :
    us.count (.acquire r) + (if r ∈ L then 1 else 0) =
      us.count (.release r) + (if r ∈ L' then 1 else 0) := by
  induction us generalizing L with
  | nil =>
    obtain rfl := Option.some.inj h
    rfl
  | cons u us ih =>
    rw [after_cons, Option.bind_eq_some_iff] at h
    obtain ⟨L₁, hu, h⟩ := h
    have ih := ih h
    cases u with
    | acquire r' =>
      simp only [behind] at hu
      split at hu
      · cases hu
      · rename_i hr'
        obtain rfl := Option.some.inj hu
        by_cases hrr : r' = r
        · -- it was not live, and is now
          subst hrr
          simp only [hr', Finset.mem_insert_self, List.count_cons_self, ↓reduceIte, ne_eq,
            reduceCtorEq, not_false_eq_true, List.count_cons_of_ne] at ih ⊢
          omega
        · have hne : r ≠ r' := Ne.symm hrr
          simpa [Finset.mem_insert, hrr, hne, List.count_cons] using ih
    | touch r' =>
      simp only [behind] at hu
      split at hu
      · obtain rfl := Option.some.inj hu
        simpa [List.count_cons] using ih
      · cases hu
    | release r' =>
      simp only [behind] at hu
      split at hu
      · rename_i hr'
        obtain rfl := Option.some.inj hu
        by_cases hrr : r' = r
        · -- it was live, and is no more
          subst hrr
          simp only [hr', Finset.notMem_erase, List.count_cons_self, ↓reduceIte, ne_eq,
            reduceCtorEq, not_false_eq_true, List.count_cons_of_ne] at ih ⊢
          omega
        · have hne : r ≠ r' := Ne.symm hrr
          simpa [Finset.mem_erase, hrr, hne, List.count_cons] using ih
      · cases hu

end Use

/-! ### Along a run -/

namespace Transition

variable {σ ℓ ε : Type*} {next : σ → ℓ → Option σ} {P : σ → ℓ → Prop} {s s' : σ} {ls : List ℓ}

/-- What the labels of a run do, each in the state it is taken from. -/
def emitted (next : σ → ℓ → Option σ) (out : σ → ℓ → List ε) (s : σ) : List ℓ → List ε
  | [] => []
  | l :: ls =>
    match next s l with
    | none => []
    | some s' => out s l ++ emitted next out s' ls

/-- An account of the live resources that every step keeps. -/
theorem Run.tenure {α : Type*} [DecidableEq α] {I : σ → Finset α → Prop} {L : Finset α}
    (out : σ → ℓ → List (Use α)) (h : Run next P s ls s') (h₀ : I s L)
    (hstep : ∀ s l s' L, I s L → P s l → next s l = some s' →
      ∃ L', Use.after L (out s l) = some L' ∧ I s' L') :
    ∃ L', Use.after L (emitted next out s ls) = some L' ∧ I s' L' := by
  induction h generalizing L with
  | nil => exact ⟨L, rfl, h₀⟩
  | cons hP hn _ ih =>
    obtain ⟨L₁, hL₁, hI⟩ := hstep _ _ _ _ h₀ hP hn
    obtain ⟨L', hL', hI'⟩ := ih hI
    simp only [emitted, hn]
    exact ⟨L', Use.after_trans hL₁ hL', hI'⟩

end Transition
