/-
ArtemisNative/Lib/Regions.lean

Memory, and the regions of it.

A memory is a function from addresses.  `store` writes a list to consecutive addresses,
`bytes` reads a region.  The two laws are the ones for one region and for two: what is
stored inside a region is read back as an `overwrite` of what was there (`bytes_store`),
and a region that is `Apart` from what is stored keeps its contents
(`bytes_store_of_apart`).

Regions that have been given out start at different addresses even if they are empty, so
that each is known by its start.
-/
import Mathlib.Data.List.Basic
import Mathlib.Data.Nat.Basic

/-- A piece of an address space. -/
structure Region where
  start : ℕ
  size : ℕ
  deriving DecidableEq, Repr

namespace Region

variable {β : Type*} {m : ℕ → β} {vs : List β} {g h k : Region} {a i j : ℕ}

/-! ### Where regions lie -/

/-- All addresses of the one are addresses of the other. -/
def Within (g h : Region) : Prop := h.start ≤ g.start ∧ g.start + g.size ≤ h.start + h.size

instance (g h : Region) : Decidable (g.Within h) := inferInstanceAs (Decidable (_ ∧ _))

/-- They have no address in common, and different starts. -/
def Apart (g h : Region) : Prop :=
  g.start ≠ h.start ∧ (g.start + g.size ≤ h.start ∨ h.start + h.size ≤ g.start)

instance (g h : Region) : Decidable (g.Apart h) := inferInstanceAs (Decidable (_ ∧ _))

theorem Apart.symm (h : g.Apart k) : k.Apart g := ⟨h.1.symm, h.2.symm⟩

theorem Within.refl (g : Region) : g.Within g := ⟨Nat.le_refl _, Nat.le_refl _⟩

/-- What is stored inside a region misses the regions apart from it. -/
theorem Within.outside (hgh : g.Within h) (hhk : h.Apart k) :
    g.start + g.size ≤ k.start ∨ k.start + k.size ≤ g.start := by
  obtain ⟨h₁, h₂⟩ := hgh
  rcases hhk.2 with h₃ | h₃
  · exact .inl (Nat.le_trans h₂ h₃)
  · exact .inr (Nat.le_trans h₃ h₁)

/-! ### Reading and writing -/

def bytes (m : ℕ → β) (g : Region) : List β := (List.range g.size).map fun i => m (g.start + i)

/-- The values are written to the addresses from `a` on. -/
def store (m : ℕ → β) (a : ℕ) (vs : List β) : ℕ → β := fun x =>
  if a ≤ x then (vs[x - a]?).getD (m x) else m x

/-- The entries of a list from index `i` on are replaced. -/
def overwrite (l : List β) (i : ℕ) (vs : List β) : List β :=
  l.take i ++ vs ++ l.drop (i + vs.length)

@[simp]
theorem length_bytes (m : ℕ → β) (g : Region) : (g.bytes m).length = g.size := by
  rw [bytes, List.length_map, List.length_range]

theorem getElem?_bytes (m : ℕ → β) (g : Region) (j : ℕ) :
    (g.bytes m)[j]? = if j < g.size then some (m (g.start + j)) else none := by
  rw [bytes, List.getElem?_map]
  split
  · rename_i hj
    rw [List.getElem?_range hj]
    rfl
  · rename_i hj
    rw [List.getElem?_eq_none (by rw [List.length_range]; omega)]
    rfl

theorem overwrite_all {l : List β} (h : vs.length = l.length) : overwrite l 0 vs = vs := by
  rw [overwrite, List.take_zero, List.nil_append, Nat.zero_add, h, List.drop_length,
    List.append_nil]

/-- What is stored inside a region is read back from it. -/
theorem bytes_store (h : i + vs.length ≤ g.size) :
    g.bytes (store m (g.start + i) vs) = overwrite (g.bytes m) i vs := by
  apply List.ext_getElem?
  intro j
  have hlen : (g.bytes m).length = g.size := length_bytes m g
  have htake : ((g.bytes m).take i).length = i := by
    rw [List.length_take]
    omega
  rw [getElem?_bytes, overwrite, List.append_assoc]
  rcases Nat.lt_or_ge j i with hji | hij
  · -- in front of what is stored
    rw [List.getElem?_append_left (by omega), List.getElem?_take_of_lt hji, getElem?_bytes,
      if_pos (by omega), if_pos (by omega), store, if_neg (by omega)]
  · rw [List.getElem?_append_right (by omega), htake]
    rcases Nat.lt_or_ge (j - i) vs.length with hjv | hvj
    · rw [List.getElem?_append_left hjv, if_pos (by omega), store, if_pos (by omega)]
      have hidx : g.start + j - (g.start + i) = j - i := by omega
      rw [hidx, List.getElem?_eq_getElem hjv]
      rfl
    · -- behind it
      rw [List.getElem?_append_right hvj, List.getElem?_drop, getElem?_bytes]
      have hidx : i + vs.length + (j - i - vs.length) = j := by omega
      rw [hidx]
      split
      · rw [store, if_pos (by omega), List.getElem?_eq_none (by omega)]
        rfl
      · rfl

/-- A region that is apart from what is stored keeps its contents. -/
theorem bytes_store_of_apart
    (h : a + vs.length ≤ g.start ∨ g.start + g.size ≤ a) : g.bytes (store m a vs) = g.bytes m := by
  refine List.map_congr_left fun j hj => ?_
  have hlt := List.mem_range.mp hj
  rw [store]
  split
  · rw [List.getElem?_eq_none (by omega)]
    rfl
  · rfl

end Region
