/-
ArtemisNative/Lib/Slots.lean

Tables that hand out their lowest free index.

A `Slots α` is a partial map from the natural numbers with finitely many
entries.  `insert` puts a value at the lowest index without one, as an operating
system numbers the descriptors of a process; `remove` frees an index, which the
next `insert` may take again.  A value put in stays under its index until that
index is removed (`get_insert_of_some`, `get_remove_of_ne`).
-/
import Mathlib.Data.List.Basic
import Mathlib.Data.List.Range
import Mathlib.Logic.Function.Basic

structure Slots (α : Type*) where
  get : ℕ → Option α
  bound : ℕ
  get_bound : ∀ i, bound ≤ i → get i = none

namespace Slots

variable {α : Type*} {s : Slots α} {a b : α} {i j : ℕ}

def empty : Slots α := ⟨fun _ => none, 0, fun _ _ => rfl⟩

/-- The lowest index without an entry. -/
def lowest (s : Slots α) : ℕ :=
  ((List.range s.bound).find? fun i => (s.get i).isNone).getD s.bound

theorem get_lowest (s : Slots α) : s.get s.lowest = none := by
  unfold lowest
  rcases h : (List.range s.bound).find? fun i => (s.get i).isNone with - | i
  · exact s.get_bound _ le_rfl
  · simpa using List.find?_some h

/-- Below the lowest free index everything is taken. -/
theorem get_of_lt_lowest (h : i < s.lowest) : s.get i ≠ none := by
  intro hi
  unfold lowest at h
  rcases hf : (List.range s.bound).find? fun i => (s.get i).isNone with - | j <;> rw [hf] at h
  · have hlt : i < s.bound := h
    have := List.find?_eq_none.mp hf i (List.mem_range.mpr hlt)
    simp [hi] at this
  · obtain ⟨-, k, hk, rfl, hno⟩ := List.find?_eq_some_iff_getElem.mp hf
    simp only [List.getElem_range, Option.getD_some] at h hno
    have := hno i h
    simp [hi] at this

theorem lowest_le_bound (s : Slots α) : s.lowest ≤ s.bound := by
  by_contra hlt
  exact get_of_lt_lowest (not_le.mp hlt) (s.get_bound _ le_rfl)

/-- Put a value at the lowest free index. -/
def insert (s : Slots α) (a : α) : Slots α where
  get := Function.update s.get s.lowest (some a)
  bound := s.bound + 1
  get_bound := fun i hi => by
    have hle := s.lowest_le_bound
    rw [Function.update_of_ne (by omega)]
    exact s.get_bound i (by omega)

/-- Free an index. -/
def remove (s : Slots α) (i : ℕ) : Slots α where
  get := Function.update s.get i none
  bound := s.bound
  get_bound := fun j hj => by
    rw [Function.update_apply]
    split
    · rfl
    · exact s.get_bound j hj

@[simp] theorem get_insert_lowest : (s.insert a).get s.lowest = some a :=
  Function.update_self ..

theorem get_insert_of_ne (h : i ≠ s.lowest) : (s.insert a).get i = s.get i :=
  Function.update_of_ne h ..

/-- Inserting disturbs no entry. -/
theorem get_insert_of_some (h : s.get i = some b) : (s.insert a).get i = some b := by
  rw [get_insert_of_ne]
  · exact h
  · rintro rfl
    rw [s.get_lowest] at h
    cases h

@[simp] theorem get_remove_self : (s.remove i).get i = none := Function.update_self ..

theorem get_remove_of_ne (h : j ≠ i) : (s.remove i).get j = s.get j :=
  Function.update_of_ne h ..

/-- Removing what is not there changes nothing. -/
theorem get_remove_of_none (h : s.get i = none) : (s.remove i).get = s.get := by
  funext j
  by_cases hj : j = i
  · rw [hj, get_remove_self, h]
  · exact get_remove_of_ne hj

end Slots
