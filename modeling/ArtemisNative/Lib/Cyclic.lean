/-
ArtemisNative/Lib/Cyclic.lean

Cyclic windows over an array of `n` slots.

An array that is used as a ring is a total function `f : ℕ → α` of which only
the slots below `n` matter.  `window f n s k` reads `k` slots cyclically from
slot `s`.  A producer appends at the slot behind a window, a consumer removes
at its first slot, and both advance a cursor with `next`; the lemmas below say
what these do to the window:

    window f n s (k + 1) = f (s % n) :: window f n (next n s) k
    window f n s (k + 1) = window f n s k ++ [f ((s + k) % n)]

A write outside a window leaves it alone (`window_update_of_ne`), and the
window of all `n` slots is a rearrangement of the array (`window_full_perm`).
-/
import Mathlib.Data.Nat.ModEq
import Mathlib.Data.List.Nodup
import Mathlib.Data.List.Range
import Mathlib.Data.List.Perm.Subperm
import Mathlib.Logic.Function.Basic

namespace Cyclic

variable {α : Type*} {f g : ℕ → α} {n s t k a b : ℕ}

/-- The `k` slots read cyclically from slot `s` of an array of `n` slots. -/
def window (f : ℕ → α) (n s k : ℕ) : List α :=
  (List.range k).map fun i => f ((s + i) % n)

/-- The cursor behind `i`: one further, back to `0` at the end of the array. -/
def next (n i : ℕ) : ℕ := if n ≤ i + 1 then 0 else i + 1

theorem next_eq_mod (h : s < n) : next n s = (s + 1) % n := by
  unfold next
  split
  · have hs : s + 1 = n := by omega
    rw [hs, Nat.mod_self]
  · exact (Nat.mod_eq_of_lt (by omega)).symm

theorem next_lt (h : s < n) : next n s < n := by
  unfold next
  split <;> omega

/-- A cursor that advances at most once around the array wraps at most once. -/
theorem add_mod_wrap (hs : s < n) (hk : k ≤ n) :
    (s + k) % n = if s + k < n then s + k else s + k - n := by
  split
  · rename_i h
    exact Nat.mod_eq_of_lt h
  · rw [Nat.mod_eq_sub_mod (by omega)]
    exact Nat.mod_eq_of_lt (by omega)

@[simp] theorem length_window : (window f n s k).length = k := by
  simp [window]

@[simp] theorem window_zero : window f n s 0 = [] := rfl

/-- Only the position of the start modulo `n` matters. -/
theorem window_mod : window f n (s % n) k = window f n s k := by
  simp [window]

theorem window_succ : window f n s (k + 1) = window f n s k ++ [f ((s + k) % n)] := by
  simp [window, List.range_succ]

theorem window_cons : window f n s (k + 1) = f (s % n) :: window f n (s + 1) k := by
  simp only [window, List.range_succ_eq_map, List.map_cons, List.map_map, Nat.add_zero,
    List.cons.injEq, true_and]
  refine List.map_congr_left fun i _ => ?_
  simp only [Function.comp_apply, Nat.succ_eq_add_one]
  congr 2
  omega

theorem window_next (h : s < n) : window f n (next n s) k = window f n (s + 1) k := by
  rw [next_eq_mod h, window_mod]

/-- Taking the first element of a window is reading its first slot and
advancing the cursor. -/
theorem window_eq_cons (h : s < n) :
    window f n s (k + 1) = f s :: window f n (next n s) k := by
  rw [window_cons, window_next h, Nat.mod_eq_of_lt h]

theorem window_append : window f n s (a + b) = window f n s a ++ window f n (s + a) b := by
  induction b with
  | zero => simp
  | succ b ih => rw [← Nat.add_assoc, window_succ, ih, window_succ, List.append_assoc, Nat.add_assoc]

theorem window_drop (h : a ≤ k) : (window f n s k).drop a = window f n (s + a) (k - a) := by
  obtain ⟨b, rfl⟩ := Nat.exists_eq_add_of_le h
  rw [window_append, List.drop_left' length_window, Nat.add_sub_cancel_left]

theorem window_getElem? (h : a < k) : (window f n s k)[a]? = some (f ((s + a) % n)) := by
  simp [window, h]

/-- Two offsets inside one turn of the array name different slots. -/
theorem slot_injective (ha : a < n) (hb : b < n) (h : (s + a) % n = (s + b) % n) : a = b := by
  have hab : a ≡ b [MOD n] := Nat.ModEq.add_left_cancel' s h
  rwa [Nat.ModEq, Nat.mod_eq_of_lt ha, Nat.mod_eq_of_lt hb] at hab

theorem window_congr (h : ∀ i < k, f ((s + i) % n) = g ((s + i) % n)) :
    window f n s k = window g n s k := by
  refine List.map_congr_left fun i hi => h i (List.mem_range.mp hi)

/-- A write outside the window does not change it. -/
theorem window_update_of_ne {j : ℕ} {x : α} (h : ∀ i < k, (s + i) % n ≠ j) :
    window (Function.update f j x) n s k = window f n s k := by
  refine window_congr fun i hi => ?_
  rw [Function.update_of_ne (h i hi)]

/-- A write to the slot behind the window appends to it. -/
theorem window_update_end {x : α} (h : k < n) :
    window (Function.update f ((s + k) % n) x) n s (k + 1) = window f n s k ++ [x] := by
  rw [window_succ, Function.update_self, window_update_of_ne]
  intro i hi he
  have hik := slot_injective (by omega) h he
  omega

/-- The window of all slots is a rearrangement of the array. -/
theorem window_full_perm (h : 0 < n) :
    (window f n s n).Perm ((List.range n).map f) := by
  have hidx : ((List.range n).map fun i => (s + i) % n).Perm (List.range n) := by
    have hnd : ((List.range n).map fun i => (s + i) % n).Nodup := by
      refine List.Nodup.map_on (fun i hi j hj he => ?_) List.nodup_range
      exact slot_injective (List.mem_range.mp hi) (List.mem_range.mp hj) he
    have hsub : ((List.range n).map fun i => (s + i) % n) ⊆ List.range n := by
      intro x hx
      obtain ⟨i, _, rfl⟩ := List.mem_map.mp hx
      exact List.mem_range.mpr (Nat.mod_lt _ h)
    exact (hnd.subperm hsub).perm_of_length_le (by simp)
  have hmap := hidx.map f
  rwa [List.map_map] at hmap

end Cyclic
