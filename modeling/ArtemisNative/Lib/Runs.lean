/-
ArtemisNative/Lib/Runs.lean

Maximal runs of equal entries of a list.

`runs l` is the number of pieces into which `List.splitBy` cuts `l` where two neighbours
differ.  A list that is read from the left gets a new run with each entry that differs from
the one before it, and no other.
-/
import Mathlib.Data.List.SplitBy

namespace Runs

variable {α : Type*} [DecidableEq α] {l : List α} {a : α}

/-- The number of maximal runs of equal entries. -/
def runs (l : List α) : ℕ := (l.splitBy fun x y => decide (x = y)).length

@[simp]
theorem runs_nil : runs ([] : List α) = 0 := rfl

/-- An entry that differs from the last one begins a run. -/
theorem runs_concat_of_ne (h : l.getLast? ≠ some a) : runs (l ++ [a]) = runs l + 1 := by
  rw [runs, List.splitBy_append, List.length_append]
  · rfl
  · rintro x hx y hy
    obtain rfl := Option.some.inj hy
    refine decide_eq_false fun heq => h ?_
    rw [← heq]
    exact hx

/-- The last entry once more belongs to the last run. -/
theorem runs_concat_of_eq (h : l.getLast? = some a) : runs (l ++ [a]) = runs l := by
  have hne : l ≠ [] := by
    rintro rfl
    cases h
  -- the pieces of `l`, the last of them apart
  obtain ⟨init, last, hsplit⟩ : ∃ init last,
      l.splitBy (fun x y => decide (x = y)) = init ++ [last] :=
    ⟨_, _, (List.dropLast_append_getLast (List.splitBy_ne_nil.mpr hne)).symm⟩
  obtain ⟨hflat, hnil, hchain, hjoint⟩ := List.splitBy_eq_iff.mp hsplit
  have hlast : last ≠ [] := fun he =>
    hnil (he ▸ List.mem_append_right _ (List.mem_singleton_self _))
  have hend : last.getLast? = some a := by
    rw [hflat, List.flatten_append, List.flatten_singleton, List.getLast?_append_of_ne_nil _ hlast]
      at h
    exact h
  have hpieces : (l ++ [a]).splitBy (fun x y => decide (x = y)) = init ++ [last ++ [a]] := by
    apply List.splitBy_eq_iff.mpr
    refine ⟨?_, ?_, ?_, ?_⟩
    · rw [hflat, List.flatten_append, List.flatten_append, List.flatten_singleton,
        List.flatten_singleton, List.append_assoc]
    · intro hmem
      rcases List.mem_append.mp hmem with hmem | hmem
      · exact hnil (List.mem_append_left _ hmem)
      · simp at hmem
    · intro m hm
      rcases List.mem_append.mp hm with hm | hm
      · exact hchain m (List.mem_append_left _ hm)
      · obtain rfl := List.mem_singleton.mp hm
        refine List.isChain_append.mpr ⟨hchain last (by simp), List.isChain_singleton a, ?_⟩
        rintro x hx y hy
        obtain rfl := Option.some.inj hy
        exact decide_eq_true (Option.some.inj (hx.symm.trans hend))
    · rw [List.isChain_append] at hjoint ⊢
      refine ⟨hjoint.1, List.isChain_singleton _, ?_⟩
      rintro m hm m' hm'
      obtain rfl := Option.some.inj hm'
      obtain ⟨ha, hb, hr⟩ := hjoint.2.2 m hm last rfl
      refine ⟨ha, by simp, ?_⟩
      rwa [List.head_append_of_ne_nil hb]
  rw [runs, runs, hpieces, hsplit, List.length_append, List.length_append]
  rfl

end Runs
