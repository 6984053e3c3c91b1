/-
ArtemisNative/Lib/Custody.lean

Distinct tokens kept at places.

`Custody O H` says that the lists `H p` hold tokens of the set `O`, no token
twice: neither in one list nor at two places.  It is the part of an ownership
argument that has nothing to do with what the tokens or the places are.  A
transition changes one or two places, and is one of

* `gain`     — a new token appears at a place;
* `lose`     — a token leaves its place and the set;
* `transfer` — tokens move between two places;
* `rearrange`, `shrink` — a list is reordered, or some tokens are forgotten.

Each rule takes the changed places as updates of `H`, up to permutation.
-/
import Mathlib.Data.Finset.Insert
import Mathlib.Data.Finset.Erase
import Mathlib.Data.List.Perm.Basic
import Mathlib.Data.List.Nodup
import Mathlib.Logic.Function.Basic

variable {ι α : Type*} [DecidableEq ι] [DecidableEq α]
variable {O : Finset α} {H : ι → List α} {p q : ι} {a : α} {l m : List α}

omit [DecidableEq ι] [DecidableEq α] in
/-- Every place keeps tokens of `O`, and no token is kept twice. -/
structure Custody (O : Finset α) (H : ι → List α) : Prop where
  nodup : ∀ p, (H p).Nodup
  disjoint : ∀ p q, p ≠ q → (H p).Disjoint (H q)
  subset : ∀ p, ∀ a ∈ H p, a ∈ O

namespace Custody

omit [DecidableEq ι] [DecidableEq α] in
theorem empty : Custody O (fun _ : ι => []) where
  nodup := fun _ => List.nodup_nil
  disjoint := fun _ _ _ => List.disjoint_nil_left _
  subset := by simp

omit [DecidableEq ι] [DecidableEq α] in
/-- A token has one place. -/
theorem place_unique (h : Custody O H) (hp : a ∈ H p) (hq : a ∈ H q) : p = q := by
  by_contra hne
  exact h.disjoint p q hne hp hq

omit [DecidableEq α] in
/-- Replacing the list at one place: the new list must be free of repetitions,
and its tokens kept nowhere else. -/
theorem replace {O' : Finset α} (h : Custody O H) (hnd : l.Nodup)
    (hl : ∀ b ∈ l, b ∈ O' ∧ ∀ r, r ≠ p → b ∉ H r)
    (hO : ∀ r, r ≠ p → ∀ b ∈ H r, b ∈ O') :
    Custody O' (Function.update H p l) where
  nodup := by
    intro r
    by_cases hr : r = p
    · subst hr
      rwa [Function.update_self]
    · rw [Function.update_of_ne hr]
      exact h.nodup r
  disjoint := by
    intro r r' hne
    by_cases hr : r = p
    · subst hr
      rw [Function.update_self, Function.update_of_ne (Ne.symm hne)]
      exact fun b hb hb' => (hl b hb).2 r' (Ne.symm hne) hb'
    · rw [Function.update_of_ne hr]
      by_cases hr' : r' = p
      · subst hr'
        rw [Function.update_self]
        exact fun b hb hb' => (hl b hb').2 r hr hb
      · rw [Function.update_of_ne hr']
        exact h.disjoint r r' hne
  subset := by
    intro r b hb
    by_cases hr : r = p
    · subst hr
      rw [Function.update_self] at hb
      exact (hl b hb).1
    · rw [Function.update_of_ne hr] at hb
      exact hO r hr b hb

/-- A token outside the set appears at place `p`. -/
theorem gain (h : Custody O H) (ha : a ∉ O) (hl : l.Perm (a :: H p)) :
    Custody (insert a O) (Function.update H p l) := by
  have hfresh : ∀ r, a ∉ H r := fun r hr => ha (h.subset r a hr)
  refine h.replace (hl.nodup_iff.mpr (List.nodup_cons.mpr ⟨hfresh p, h.nodup p⟩)) ?_ ?_
  · intro b hb
    rcases List.mem_cons.mp (hl.mem_iff.mp hb) with rfl | hb
    · exact ⟨Finset.mem_insert_self _ _, fun r _ => hfresh r⟩
    · exact ⟨Finset.mem_insert_of_mem (h.subset p b hb),
        fun r hr hbr => hr (h.place_unique hbr hb)⟩
  · exact fun r _ b hb => Finset.mem_insert_of_mem (h.subset r b hb)

/-- A token leaves place `p` and the set. -/
theorem lose (h : Custody O H) (hl : (H p).Perm (a :: l)) :
    Custody (O.erase a) (Function.update H p l) := by
  have hnd : (a :: l).Nodup := hl.nodup_iff.mp (h.nodup p)
  have hmem : ∀ b ∈ l, b ∈ H p := fun b hb => hl.mem_iff.mpr (List.mem_cons_of_mem _ hb)
  have ha : a ∈ H p := hl.mem_iff.mpr List.mem_cons_self
  refine h.replace (List.nodup_cons.mp hnd).2 ?_ ?_
  · intro b hb
    refine ⟨Finset.mem_erase.mpr ⟨?_, h.subset p b (hmem b hb)⟩,
      fun r hr hbr => hr (h.place_unique hbr (hmem b hb))⟩
    rintro rfl
    exact (List.nodup_cons.mp hnd).1 hb
  · intro r hr b hb
    refine Finset.mem_erase.mpr ⟨?_, h.subset r b hb⟩
    rintro rfl
    exact hr (h.place_unique hb ha)

omit [DecidableEq α] in
/-- Tokens at place `p` are forgotten. -/
theorem shrink (h : Custody O H) (hl : l.Sublist (H p)) :
    Custody O (Function.update H p l) := by
  refine h.replace (hl.nodup (h.nodup p)) ?_ (fun r _ => h.subset r)
  exact fun b hb => ⟨h.subset p b (hl.subset hb),
    fun r hr hbr => hr (h.place_unique hbr (hl.subset hb))⟩

omit [DecidableEq α] in
/-- The list at place `p` is reordered. -/
theorem rearrange (h : Custody O H) (hl : l.Perm (H p)) :
    Custody O (Function.update H p l) := by
  refine h.replace (hl.nodup_iff.mpr (h.nodup p)) ?_ (fun r _ => h.subset r)
  exact fun b hb => ⟨h.subset p b (hl.mem_iff.mp hb),
    fun r hr hbr => hr (h.place_unique hbr (hl.mem_iff.mp hb))⟩

omit [DecidableEq α] in
/-- Tokens move between the places `p` and `q`. -/
theorem transfer (h : Custody O H) (hpq : p ≠ q) (hl : (l ++ m).Perm (H p ++ H q)) :
    Custody O (Function.update (Function.update H p l) q m) := by
  have hnd : (l ++ m).Nodup := hl.nodup_iff.mpr
    ((h.nodup p).append (h.nodup q) (h.disjoint p q hpq))
  have hmem : ∀ b, b ∈ l ++ m → b ∈ O ∧ ∀ r, r ≠ p → r ≠ q → b ∉ H r := by
    intro b hb
    rcases List.mem_append.mp (hl.mem_iff.mp hb) with hb | hb
    · exact ⟨h.subset p b hb, fun r hr _ hbr => hr (h.place_unique hbr hb)⟩
    · exact ⟨h.subset q b hb, fun r _ hr hbr => hr (h.place_unique hbr hb)⟩
  -- empty `q` first, then put `l` at `p` and `m` at `q`
  have h₀ : Custody O (Function.update H q []) := h.shrink (List.nil_sublist _)
  have h₁ : Custody O (Function.update (Function.update H q []) p l) := by
    refine h₀.replace hnd.of_append_left ?_ (fun r _ => h₀.subset r)
    intro b hb
    obtain ⟨hbO, hbr⟩ := hmem b (List.mem_append_left _ hb)
    refine ⟨hbO, fun r hr => ?_⟩
    by_cases hrq : r = q
    · subst hrq
      simp
    · rw [Function.update_of_ne hrq]
      exact hbr r hr hrq
  have h₂ : Custody O
      (Function.update (Function.update (Function.update H q []) p l) q m) := by
    refine h₁.replace hnd.of_append_right ?_ (fun r _ => h₁.subset r)
    intro b hb
    obtain ⟨hbO, hbr⟩ := hmem b (List.mem_append_right _ hb)
    refine ⟨hbO, fun r hr => ?_⟩
    by_cases hrp : r = p
    · subst hrp
      rw [Function.update_self]
      exact fun hbl => (List.nodup_append.mp hnd).2.2 b hbl b hb rfl
    · rw [Function.update_of_ne hrp, Function.update_of_ne hr]
      exact hbr r hrp hr
  convert h₂ using 1
  funext r
  by_cases hrq : r = q
  · subst hrq
    simp
  · by_cases hrp : r = p
    · subst hrp
      simp [hrq]
    · simp [hrq, hrp]

end Custody

/-! ### No token is lost -/

omit [DecidableEq ι] [DecidableEq α] in
/-- Every token of `O` is kept at some place. -/
def Kept (O : Finset α) (H : ι → List α) : Prop := ∀ a ∈ O, ∃ p, a ∈ H p

omit [DecidableEq α] in
/-- Replacing the list at one place: a token that is new is in the new list, and
one that was there is in it, or somewhere else, or not in the set any more. -/
theorem Kept.replace {O' : Finset α} (h : Kept O H) (hO : ∀ a ∈ O', a ∈ O ∨ a ∈ l)
    (hl : ∀ a ∈ H p, a ∈ O' → a ∈ l ∨ ∃ q, q ≠ p ∧ a ∈ H q) :
    Kept O' (Function.update H p l) := by
  have hp : ∀ a ∈ l, ∃ q, a ∈ Function.update H p l q := by
    intro a ha
    exact ⟨p, by rwa [Function.update_self]⟩
  have hq : ∀ q a, q ≠ p → a ∈ H q → ∃ q, a ∈ Function.update H p l q := by
    intro q a hqp ha
    exact ⟨q, by rwa [Function.update_of_ne hqp]⟩
  intro a ha
  rcases hO a ha with hold | hnew
  · obtain ⟨q, haq⟩ := h a hold
    by_cases hqp : q = p
    · subst hqp
      rcases hl a haq ha with hal | ⟨r, hr, har⟩
      · exact hp a hal
      · exact hq r a hr har
    · exact hq q a hqp haq
  · exact hp a hnew
