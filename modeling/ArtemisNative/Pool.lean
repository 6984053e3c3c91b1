/-
ArtemisNative/Pool.lean

The reusable pool of iocbs inside `struct io_control`.

The array `iocb` is a ring: `getIOCB` reads the slot at `iocbGet`, `putIOCB`
writes the slot at `iocbPut`, and `used` counts what is out.  `getIOCB` leaves
the pointer it returns in its slot, so the array never forgets by itself; a
slot is overwritten only when the put cursor comes around to it, with whatever
iocb is returned at that moment.

An iocb is named by the position it was allocated at: `newContext` stores the
`i`-th `malloc` in slot `i`.

`Accounts n c out handed` is the invariant of the pool, relative to two
histories: the set `out` of iocbs that are out, and the list `handed` of all
pointers `getIOCB` ever returned, oldest first.

* the `n - used` slots from `iocbGet` on hold exactly the iocbs that are not
  out, each once;
* the other `used` slots, from `iocbPut` on, are stale: they hold the last
  `used` pointers handed out, whether or not these are the ones still out.

The second half is what decides whether `iocb_destroy`, which frees the whole
array, frees every iocb once (`iocbDestroy_perm_iff`).
-/
import ArtemisNative.Lib.Cyclic
import Mathlib.Data.Finset.Card
import Mathlib.Data.Finset.Range
import Mathlib.Data.Finset.Dedup

namespace ArtemisNative

open Cyclic

/-! ### The pool and its operations -/

/-- The pool part of `struct io_control`; `used` is a C `int`. -/
structure IocbPool where
  iocb : ℕ → ℕ
  queueSize : ℕ
  iocbPut : ℕ
  iocbGet : ℕ
  used : ℤ

namespace IocbPool

/-- The pool as `newContext` leaves it. -/
def new (queueSize : ℕ) : IocbPool where
  iocb := id
  queueSize := queueSize
  iocbPut := 0
  iocbGet := 0
  used := 0

/-- Remove an iocb from the pool; `none` is the `NULL` of a pool that is used
up. -/
def getIOCB (control : IocbPool) : Option (ℕ × IocbPool) :=
  if control.used < control.queueSize then
    some (control.iocb control.iocbGet,
      { control with
        used := control.used + 1
        iocbGet := next control.queueSize control.iocbGet })
  else
    none

/-- Put an iocb back on the pool. -/
def putIOCB (control : IocbPool) (iocbBack : ℕ) : IocbPool :=
  { control with
    used := control.used - 1
    iocb := Function.update control.iocb control.iocbPut iocbBack
    iocbPut := next control.queueSize control.iocbPut }

/-- The pointers `iocb_destroy_members` passes to `free`. -/
def iocbDestroyMembers (theControl : IocbPool) (upperBound : ℕ) : List ℕ :=
  (List.range upperBound).map theControl.iocb

/-- The pointers `iocb_destroy` passes to `free`, besides the array itself. -/
def iocbDestroy (theControl : IocbPool) : List ℕ :=
  theControl.iocbDestroyMembers theControl.queueSize

/-! ### The invariant -/

variable {n : ℕ} {c c' : IocbPool} {out : Finset ℕ} {handed : List ℕ} {b : ℕ}

/-- The slots that hold the iocbs in the pool. -/
def free (c : IocbPool) (n used : ℕ) : List ℕ := window c.iocb n c.iocbGet (n - used)

/-- The slots that `getIOCB` has passed and `putIOCB` has not reached. -/
def stale (c : IocbPool) (n used : ℕ) : List ℕ := window c.iocb n c.iocbPut used

/-- The last `k` pointers handed out. -/
def lastHanded (handed : List ℕ) (k : ℕ) : List ℕ := handed.drop (handed.length - k)

structure Accounts (n : ℕ) (c : IocbPool) (out : Finset ℕ) (handed : List ℕ) : Prop where
  size : c.queueSize = n
  get_lt : c.iocbGet < n
  put_lt : c.iocbPut < n
  used_eq : c.used = out.card
  put_eq : c.iocbPut = (c.iocbGet + (n - out.card)) % n
  out_lt : ∀ b ∈ out, b < n
  free_nodup : (c.free n out.card).Nodup
  mem_free : ∀ b, b ∈ c.free n out.card ↔ b < n ∧ b ∉ out
  card_le_handed : out.card ≤ handed.length
  stale_eq : c.stale n out.card = lastHanded handed out.card

theorem accounts_new (hn : 0 < n) : Accounts n (new n) ∅ [] where
  size := rfl
  get_lt := hn
  put_lt := hn
  used_eq := rfl
  put_eq := by simp [new]
  out_lt := by simp
  free_nodup := by
    have hperm : (window id n 0 n).Perm ((List.range n).map id) := window_full_perm hn
    rw [List.map_id] at hperm
    simpa [free, new] using hperm.nodup_iff.mpr List.nodup_range
  mem_free := by
    intro b
    have hperm : (window id n 0 n).Perm ((List.range n).map id) := window_full_perm hn
    rw [List.map_id] at hperm
    simpa [free, new] using hperm.mem_iff (a := b)
  card_le_handed := by simp
  stale_eq := by simp [stale, lastHanded]

theorem Accounts.card_le (h : Accounts n c out handed) : out.card ≤ n := by
  have hsub : out ⊆ Finset.range n := fun b hb => Finset.mem_range.mpr (h.out_lt b hb)
  simpa using Finset.card_le_card hsub

/-- The slot behind the stale ones is the next to be handed out. -/
theorem Accounts.put_add_card (h : Accounts n c out handed) :
    (c.iocbPut + out.card) % n = c.iocbGet := by
  have hle := h.card_le
  have hsum : c.iocbGet + (n - out.card) + out.card = c.iocbGet + n := by omega
  rw [h.put_eq, Nat.mod_add_mod, hsum, Nat.add_mod_right, Nat.mod_eq_of_lt h.get_lt]

/-- `getIOCB` returns `NULL` exactly when all `n` iocbs are out. -/
theorem Accounts.getIOCB_eq_none_iff (h : Accounts n c out handed) :
    c.getIOCB = none ↔ out = Finset.range n := by
  have hcard : c.getIOCB = none ↔ out.card = n := by
    have hle := h.card_le
    unfold getIOCB
    rw [h.used_eq, h.size]
    split
    · simp only [reduceCtorEq, false_iff]
      omega
    · simp only [true_iff]
      omega
  rw [hcard]
  constructor
  · intro hc
    exact Finset.eq_of_subset_of_card_le
      (fun b hb => Finset.mem_range.mpr (h.out_lt b hb)) (by simp [hc])
  · rintro rfl
    simp

/-- What `getIOCB` returns was in the pool, and is now out. -/
theorem Accounts.getIOCB (h : Accounts n c out handed) (hg : c.getIOCB = some (b, c')) :
    b < n ∧ b ∉ out ∧ Accounts n c' (insert b out) (handed ++ [b]) := by
  unfold IocbPool.getIOCB at hg
  split at hg
  · rename_i hlt
    obtain ⟨rfl, rfl⟩ := Prod.mk.injEq .. ▸ Option.some.inj hg
    rw [h.used_eq, h.size] at hlt
    obtain ⟨m, hm⟩ : ∃ m, n - out.card = m + 1 := ⟨n - out.card - 1, by omega⟩
    have hfree : c.free n out.card
        = c.iocb c.iocbGet :: window c.iocb n (next n c.iocbGet) m := by
      rw [free, hm, window_eq_cons h.get_lt]
    obtain ⟨hbn, hbo⟩ := (h.mem_free _).mp (hfree ▸ List.mem_cons_self)
    have hnd := List.nodup_cons.mp (hfree ▸ h.free_nodup)
    have hcard : (insert (c.iocb c.iocbGet) out).card = out.card + 1 :=
      Finset.card_insert_of_notMem hbo
    have hrest : n - (insert (c.iocb c.iocbGet) out).card = m := by omega
    refine ⟨hbn, hbo, ?_⟩
    constructor
    · exact h.size
    · simpa [h.size] using next_lt h.get_lt
    · exact h.put_lt
    · simp [hcard, h.used_eq]
    · rw [hrest]
      simp only [h.size]
      rw [next_eq_mod h.get_lt, Nat.mod_add_mod, h.put_eq, hm]
      congr 1
      omega
    · intro b hb
      rcases Finset.mem_insert.mp hb with rfl | hb
      · exact hbn
      · exact h.out_lt b hb
    · rw [free, hrest]
      simpa [h.size] using hnd.2
    · intro b
      have hmem := h.mem_free b
      rw [hfree, List.mem_cons] at hmem
      rw [free, hrest]
      simp only [h.size, Finset.mem_insert, not_or]
      constructor
      · intro hb
        obtain ⟨hlt', ho⟩ := hmem.mp (Or.inr hb)
        refine ⟨hlt', ?_, ho⟩
        rintro rfl
        exact hnd.1 hb
      · rintro ⟨hlt', hne, ho⟩
        exact (hmem.mpr ⟨hlt', ho⟩).resolve_left hne
    · simp only [hcard, List.length_append, List.length_singleton]
      have := h.card_le_handed
      omega
    · rw [stale, hcard, window_succ]
      simp only
      rw [h.put_add_card]
      have hs := h.stale_eq
      simp only [stale, lastHanded] at hs ⊢
      rw [hs, List.length_append, List.length_singleton, Nat.add_sub_add_right,
        List.drop_append_of_le_length (Nat.sub_le _ _)]
  · cases hg

/-- Putting back an iocb that is out. -/
theorem Accounts.putIOCB (h : Accounts n c out handed) (hb : b ∈ out) :
    Accounts n (c.putIOCB b) (out.erase b) handed := by
  have hle := h.card_le
  have hpos : 0 < out.card := Finset.card_pos.mpr ⟨b, hb⟩
  have hcard : (out.erase b).card = out.card - 1 := Finset.card_erase_of_mem hb
  have hrest : n - (out.erase b).card = n - out.card + 1 := by omega
  have hfree : (c.putIOCB b).free n (out.erase b).card = c.free n out.card ++ [b] := by
    rw [free, hrest]
    simp only [IocbPool.putIOCB]
    rw [h.put_eq, window_update_end (by omega)]
    rfl
  have hbfree : b ∉ c.free n out.card := fun hf => ((h.mem_free b).mp hf).2 hb
  constructor
  · exact h.size
  · exact h.get_lt
  · simpa [IocbPool.putIOCB, h.size] using next_lt h.put_lt
  · simp only [IocbPool.putIOCB, h.used_eq, hcard]
    omega
  · rw [hrest]
    simp only [IocbPool.putIOCB, h.size]
    rw [next_eq_mod h.put_lt, h.put_eq, Nat.mod_add_mod]
    congr 1
  · exact fun d hd => h.out_lt d (Finset.mem_of_mem_erase hd)
  · rw [hfree]
    exact h.free_nodup.append (List.nodup_singleton b) (by simpa using hbfree)
  · intro d
    rw [hfree, List.mem_append, List.mem_singleton, h.mem_free, Finset.mem_erase]
    constructor
    · rintro (⟨hd, ho⟩ | rfl)
      · exact ⟨hd, fun hd' => ho hd'.2⟩
      · exact ⟨h.out_lt d hb, fun hd' => hd'.1 rfl⟩
    · rintro ⟨hd, ho⟩
      by_cases hdb : d = b
      · exact Or.inr hdb
      · exact Or.inl ⟨hd, fun hd' => ho ⟨hdb, hd'⟩⟩
  · have := h.card_le_handed
    omega
  · -- the oldest stale slot is overwritten and leaves the stale part
    have hstale : (c.putIOCB b).stale n (out.erase b).card = (c.stale n out.card).drop 1 := by
      simp only [stale, IocbPool.putIOCB, h.size, hcard]
      rw [window_next h.put_lt, window_drop hpos, window_update_of_ne]
      intro i hi he
      have hslot : (c.iocbPut + (1 + i)) % n = (c.iocbPut + 0) % n := by
        rw [← Nat.add_assoc, he, Nat.add_zero, Nat.mod_eq_of_lt h.put_lt]
      have := slot_injective (by omega) (by omega) hslot
      omega
    rw [hstale, h.stale_eq]
    simp only [lastHanded, List.drop_drop, hcard]
    congr 1
    have := h.card_le_handed
    omega

/-! ### What the destruction of the pool frees -/

/-- The whole array, up to order: the iocbs in the pool and the stale slots. -/
theorem Accounts.iocbDestroy_perm (h : Accounts n c out handed) :
    c.iocbDestroy.Perm (c.free n out.card ++ lastHanded handed out.card) := by
  have hle := h.card_le
  have hlt := h.get_lt
  have hall : window c.iocb n c.iocbGet n
      = c.free n out.card ++ window c.iocb n (c.iocbGet + (n - out.card)) out.card := by
    rw [free, ← window_append]
    congr 1
    omega
  have hstale : window c.iocb n (c.iocbGet + (n - out.card)) out.card
      = lastHanded handed out.card := by
    rw [← h.stale_eq, stale, h.put_eq, window_mod]
  have hperm : (window c.iocb n c.iocbGet n).Perm ((List.range n).map c.iocb) :=
    window_full_perm (by omega)
  rw [hall, hstale] at hperm
  simpa [iocbDestroy, iocbDestroyMembers, h.size] using hperm.symm

/-- Freeing the array frees each of the `n` iocbs once if and only if the
iocbs that are out are among the last ones handed out. -/
theorem Accounts.iocbDestroy_perm_iff (h : Accounts n c out handed) :
    c.iocbDestroy.Perm (List.range n) ↔ ∀ b ∈ out, b ∈ lastHanded handed out.card := by
  have hperm := h.iocbDestroy_perm
  have hlen : (lastHanded handed out.card).length = out.card := by
    have := h.card_le_handed
    simp only [lastHanded, List.length_drop]
    omega
  constructor
  · intro hd b hb
    have hmem : b ∈ c.free n out.card ++ lastHanded handed out.card :=
      (hperm.symm.trans hd).mem_iff.mpr (List.mem_range.mpr (h.out_lt b hb))
    rcases List.mem_append.mp hmem with hf | hs
    · exact absurd hb ((h.mem_free b).mp hf).2
    · exact hs
  · intro hsub
    -- `out.card` pointers that cover `out` are `out`, without repetition
    have hcover : out ⊆ (lastHanded handed out.card).toFinset :=
      fun b hb => List.mem_toFinset.mpr (hsub b hb)
    have hcard : (lastHanded handed out.card).toFinset.card ≤ out.card :=
      (List.toFinset_card_le _).trans_eq hlen
    have heq : out = (lastHanded handed out.card).toFinset :=
      Finset.eq_of_subset_of_card_le hcover hcard
    have hnd : (lastHanded handed out.card).Nodup := by
      refine Multiset.coe_nodup.mp (Multiset.toFinset_card_eq_card_iff_nodup.mp ?_)
      exact (congrArg Finset.card heq.symm).trans hlen.symm
    have hmem : ∀ b ∈ lastHanded handed out.card, b ∈ out := by
      intro b hb
      rw [heq]
      exact List.mem_toFinset.mpr hb
    have hall : (c.free n out.card ++ lastHanded handed out.card).Nodup := by
      refine h.free_nodup.append hnd fun b hf hs => ?_
      exact ((h.mem_free b).mp hf).2 (hmem b hs)
    refine hperm.trans ((hall.subperm ?_).perm_of_length_le ?_)
    · intro b hb
      rcases List.mem_append.mp hb with hf | hs
      · exact List.mem_range.mpr ((h.mem_free b).mp hf).1
      · exact List.mem_range.mpr (h.out_lt b (hmem b hs))
    · have := h.card_le
      simp only [free, List.length_append, length_window, hlen, List.length_range]
      omega

end IocbPool

end ArtemisNative
