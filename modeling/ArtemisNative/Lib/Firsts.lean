/-
ArtemisNative/Lib/Firsts.lean

The first element of each key.

`firsts key seen l` are the elements of `l` whose key is new: it is not among `seen`, and
no earlier element of `l` has it.  It is what is left of a sequence of messages when those
that have been seen before are ignored; `seen` counts as a set (`firsts_congr`).
-/
import Mathlib.Data.List.Basic

variable {α κ : Type*} [DecidableEq κ] {key : α → κ} {seen seen' : List κ} {a : α} {l : List α}

def firsts (key : α → κ) (seen : List κ) : List α → List α
  | [] => []
  | a :: l => if key a ∈ seen then firsts key seen l else a :: firsts key (key a :: seen) l

theorem firsts_cons_of_mem (h : key a ∈ seen) : firsts key seen (a :: l) = firsts key seen l :=
  if_pos h

theorem firsts_cons_of_not_mem (h : key a ∉ seen) :
    firsts key seen (a :: l) = a :: firsts key (key a :: seen) l :=
  if_neg h

theorem firsts_congr (h : ∀ k, k ∈ seen ↔ k ∈ seen') : firsts key seen l = firsts key seen' l := by
  induction l generalizing seen seen' with
  | nil => rfl
  | cons a l ih =>
    by_cases ha : key a ∈ seen
    · rw [firsts_cons_of_mem ha, firsts_cons_of_mem ((h _).mp ha), ih h]
    · rw [firsts_cons_of_not_mem ha, firsts_cons_of_not_mem (mt (h _).mpr ha)]
      refine congrArg (a :: ·) (ih fun k => ?_)
      rw [List.mem_cons, List.mem_cons, h k]

/-- An element that has been seen, or is behind another with its key, does not count. -/
theorem firsts_snoc_of_mem (h : key a ∈ seen ∨ key a ∈ l.map key) :
    firsts key seen (l ++ [a]) = firsts key seen l := by
  induction l generalizing seen with
  | nil => exact firsts_cons_of_mem (h.resolve_right (List.not_mem_nil))
  | cons b l ih =>
    rw [List.cons_append]
    by_cases hb : key b ∈ seen
    · rw [firsts_cons_of_mem hb, firsts_cons_of_mem hb]
      refine ih (h.elim .inl fun ha => ?_)
      rcases List.mem_cons.mp ha with hab | ha
      · exact .inl (hab ▸ hb)
      · exact .inr ha
    · rw [firsts_cons_of_not_mem hb, firsts_cons_of_not_mem hb]
      apply congrArg (b :: ·)
      refine ih (h.elim (fun ha => .inl (List.mem_cons_of_mem _ ha)) fun ha => ?_)
      rcases List.mem_cons.mp ha with hab | ha
      · exact .inl (hab ▸ List.mem_cons_self)
      · exact .inr ha

/-- An element with a new key is the last one. -/
theorem firsts_snoc_of_not_mem (hs : key a ∉ seen) (hl : key a ∉ l.map key) :
    firsts key seen (l ++ [a]) = firsts key seen l ++ [a] := by
  induction l generalizing seen with
  | nil => exact firsts_cons_of_not_mem hs
  | cons b l ih =>
    obtain ⟨hab, hl⟩ := not_or.mp (mt List.mem_cons.mpr hl)
    rw [List.cons_append]
    by_cases hb : key b ∈ seen
    · rw [firsts_cons_of_mem hb, firsts_cons_of_mem hb, ih hs hl]
    · rw [firsts_cons_of_not_mem hb, firsts_cons_of_not_mem hb, List.cons_append]
      exact congrArg (b :: ·) (ih (mt List.mem_cons.mp (not_or.mpr ⟨hab, hs⟩)) hl)
