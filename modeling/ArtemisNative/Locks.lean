/-
ArtemisNative/Locks.lean

The pool of iocbs under `iocbLock`, and `CallbackCache` under its monitor, statement by
statement.

`Pool.lean` and `CallbackCache.lean` take `getIOCB`, `putIOCB`, `get` and `put` as single
steps.  Here any number of threads run them one load and one store at a time, `used++`
being two of them, and stop anywhere in between; only the locks keep them apart.

* `poolBody` and `cacheBody` are the statements; alone they do what the single steps do
  (`poolBody_does`, `cacheBody_does`), so with the lock the objects are linearizable
  (`Monitor.Body.simulates`).
* The single steps of the pool are those of a queue of free iocbs, oldest first, as long
  as an iocb is put back once for each time it was handed out: `pool_is_free_list`.
* Those of the cache are of a queue of bounded capacity, whatever the callers do:
  `cache_is_bounded_queue`.

In both, no access is outside of the array, in the middle of a call either.
-/
import ArtemisNative.Pool
import ArtemisNative.CallbackCache
import ArtemisNative.Lib.Monitor

namespace ArtemisNative

open Cyclic Transition Monitor

/-! ### The pool, statement by statement -/

inductive PoolCall
  | getIOCB
  | putIOCB (iocbBack : ℕ)
  deriving DecidableEq, Repr

/-- `getIOCB` returns a pointer, or `NULL`; `putIOCB` returns nothing. -/
inductive PoolResult
  | iocb (iocb : Option ℕ)
  | void
  deriving DecidableEq, Repr

/-- The statements, in their order; an increment is a load and a store. -/
inductive PoolPc
  /-- `if (control->used < control->queueSize)` -/
  | testUsed
  | loadUsed
  | storeUsed (used : ℤ)
  /-- `iocb = control->iocb[control->iocbGet++]` -/
  | loadGet
  | storeGet (iocbGet : ℕ)
  | readSlot (i : ℕ)
  /-- `if (control->iocbGet >= control->queueSize)` -/
  | wrapGet (iocb : ℕ)
  /-- `control->used--` -/
  | loadUsedBack (iocbBack : ℕ)
  | storeUsedBack (iocbBack : ℕ) (used : ℤ)
  /-- `control->iocb[control->iocbPut++] = iocbBack` -/
  | loadPut (iocbBack : ℕ)
  | storePut (iocbBack iocbPut : ℕ)
  | writeSlot (iocbBack i : ℕ)
  | wrapPut
  deriving DecidableEq, Repr

/-- The slot of the array a statement reads or writes. -/
def PoolPc.slot : PoolPc → Option ℕ
  | .readSlot i => some i
  | .writeSlot _ i => some i
  | _ => none

namespace IocbPool

variable {n : ℕ} {c c' : IocbPool} {out : Finset ℕ} {handed : List ℕ}

/-- The single steps. -/
def call (control : IocbPool) : PoolCall → PoolResult × IocbPool
  | .getIOCB =>
    match control.getIOCB with
    | some (iocb, control) => (.iocb (some iocb), control)
    | none => (.iocb none, control)
  | .putIOCB iocbBack => (.void, control.putIOCB iocbBack)

def poolStart : PoolCall → PoolPc ⊕ PoolResult
  | .getIOCB => .inl .testUsed
  | .putIOCB iocbBack => .inl (.loadUsedBack iocbBack)

def poolStep (control : IocbPool) : PoolPc → IocbPool × (PoolPc ⊕ PoolResult)
  | .testUsed =>
    (control, if control.used < control.queueSize then .inl .loadUsed else .inr (.iocb none))
  | .loadUsed => (control, .inl (.storeUsed control.used))
  | .storeUsed used => ({ control with used := used + 1 }, .inl .loadGet)
  | .loadGet => (control, .inl (.storeGet control.iocbGet))
  | .storeGet iocbGet => ({ control with iocbGet := iocbGet + 1 }, .inl (.readSlot iocbGet))
  | .readSlot i => (control, .inl (.wrapGet (control.iocb i)))
  | .wrapGet iocb =>
    (if control.queueSize ≤ control.iocbGet then { control with iocbGet := 0 } else control,
      .inr (.iocb (some iocb)))
  | .loadUsedBack iocbBack => (control, .inl (.storeUsedBack iocbBack control.used))
  | .storeUsedBack iocbBack used =>
    ({ control with used := used - 1 }, .inl (.loadPut iocbBack))
  | .loadPut iocbBack => (control, .inl (.storePut iocbBack control.iocbPut))
  | .storePut iocbBack iocbPut =>
    ({ control with iocbPut := iocbPut + 1 }, .inl (.writeSlot iocbBack iocbPut))
  | .writeSlot iocbBack i =>
    ({ control with iocb := Function.update control.iocb i iocbBack }, .inl .wrapPut)
  | .wrapPut =>
    (if control.queueSize ≤ control.iocbPut then { control with iocbPut := 0 } else control,
      .inr .void)

/-- `getIOCB` and `putIOCB` between `pthread_mutex_lock` and `pthread_mutex_unlock`. -/
def poolBody : Body IocbPool PoolCall PoolPc PoolResult := ⟨poolStart, poolStep⟩

theorem ends_getIOCB (c : IocbPool) :
    poolBody.Ends (c, .testUsed) (c.call .getIOCB).1 (c.call .getIOCB).2 := by
  by_cases hlt : c.used < c.queueSize
  · have htest : poolBody.step c .testUsed = (c, .inl .loadUsed) := by
      show (c, if c.used < c.queueSize then _ else _) = _
      rw [if_pos hlt]
    have hlast : poolBody.step
        { c with used := c.used + 1, iocbGet := c.iocbGet + 1 } (.wrapGet (c.iocb c.iocbGet)) =
          ((c.call .getIOCB).2, .inr (c.call .getIOCB).1) := by
      simp only [poolBody, poolStep, call, getIOCB, if_pos hlt, Cyclic.next]
      split <;> rfl
    -- `used++`, then `iocbGet++` and the slot it was at
    apply Body.Ends.access htest
    apply Body.Ends.access rfl
    apply Body.Ends.access rfl
    apply Body.Ends.access rfl
    apply Body.Ends.access rfl
    apply Body.Ends.access rfl
    exact Body.Ends.last hlast
  · apply Body.Ends.last
    simp only [poolBody, poolStep, call, getIOCB, if_neg hlt]

theorem ends_putIOCB (c : IocbPool) (b : ℕ) :
    poolBody.Ends (c, .loadUsedBack b) (c.call (.putIOCB b)).1 (c.call (.putIOCB b)).2 := by
  have hlast : poolBody.step { c with
      used := c.used - 1
      iocbPut := c.iocbPut + 1
      iocb := Function.update c.iocb c.iocbPut b } .wrapPut =
        ((c.call (.putIOCB b)).2, .inr (c.call (.putIOCB b)).1) := by
    simp only [poolBody, poolStep, call, putIOCB, Cyclic.next]
    split <;> rfl
  -- `used--`, then `iocbPut++` and the slot it was at
  apply Body.Ends.access rfl
  apply Body.Ends.access rfl
  apply Body.Ends.access rfl
  apply Body.Ends.access rfl
  apply Body.Ends.access rfl
  exact Body.Ends.last hlast

/-- Alone, the statements do what the single steps do. -/
theorem poolBody_does : poolBody.Does call where
  locked c o l hl := by
    cases o with
    | getIOCB =>
      obtain rfl := Sum.inl.inj hl
      exact ends_getIOCB c
    | putIOCB b =>
      obtain rfl := Sum.inl.inj hl
      exact ends_putIOCB c b
  quick c o r hr := by
    cases o with
    | getIOCB => cases hr
    | putIOCB b => cases hr

/-! ### Who has an iocb -/

variable {Tid : Type*}

/-- What a call or a return does to the iocbs that are in the hands of callers. -/
def take (hands : Finset ℕ) : Event Tid PoolCall PoolResult → Finset ℕ
  | .ret _ (.iocb (some iocb)) => insert iocb hands
  | .call _ (.putIOCB iocbBack) => hands.erase iocbBack
  | _ => hands

/-- The iocbs that were handed out and not put back. -/
def inHands (history : List (Event Tid PoolCall PoolResult)) : Finset ℕ :=
  history.foldl take ∅

/-- An iocb is put back by whoever has it, once. -/
def Handed (history : List (Event Tid PoolCall PoolResult)) (_ : Tid) : PoolCall → Prop
  | .putIOCB iocbBack => iocbBack ∈ inHands history
  | .getIOCB => True

theorem inHands_append (history : List (Event Tid PoolCall PoolResult))
    (e : Event Tid PoolCall PoolResult) :
    inHands (history ++ [e]) = take (inHands history) e := by
  simp only [inHands, List.foldl_append, List.foldl_cons, List.foldl_nil]

/-- Iocb `b` is with the callers, or thread `t` has it in a call. -/
def At (a : Atomic Tid IocbPool PoolCall PoolResult) (b : ℕ) : Option Tid → Prop
  | none => b ∈ inHands a.history
  | some t => a.phase t = .waits (.putIOCB b) ∨ a.phase t = .returns (.iocb (some b))

/-- The iocbs that are out are each in one place. -/
structure Placed (a : Atomic Tid IocbPool PoolCall PoolResult) (out : Finset ℕ) : Prop where
  mem : ∀ b, b ∈ out ↔ ∃ p, At a b p
  unique : ∀ b p q, At a b p → At a b q → p = q

variable {a a' : Atomic Tid IocbPool PoolCall PoolResult} {b : ℕ} {p q : Option Tid} {t : Tid}

/-- Iocb `b` comes to a place of its own. -/
theorem Placed.put (h : Placed a out) (hb : ∀ q, At a' b q ↔ q = p)
    (hne : ∀ x q, x ≠ b → (At a' x q ↔ At a x q)) : Placed a' (insert b out) where
  mem x := by
    rw [Finset.mem_insert]
    by_cases hx : x = b
    · subst hx
      exact ⟨fun _ => ⟨p, (hb p).mpr rfl⟩, fun _ => .inl rfl⟩
    · rw [or_iff_right hx, h.mem x]
      exact exists_congr fun q => (hne x q hx).symm
  unique x q q' hq hq' := by
    by_cases hx : x = b
    · subst hx
      rw [(hb q).mp hq, (hb q').mp hq']
    · exact h.unique x q q' ((hne x q hx).mp hq) ((hne x q' hx).mp hq')

/-- Iocb `b` goes back to the pool. -/
theorem Placed.gone (h : Placed a out) (hb : ∀ q, ¬At a' b q)
    (hne : ∀ x q, x ≠ b → (At a' x q ↔ At a x q)) : Placed a' (out.erase b) where
  mem x := by
    rw [Finset.mem_erase]
    by_cases hx : x = b
    · subst hx
      exact ⟨fun hout => absurd rfl hout.1, fun ⟨q, hq⟩ => absurd hq (hb q)⟩
    · rw [and_iff_right hx, h.mem x]
      exact exists_congr fun q => (hne x q hx).symm
  unique x q q' hq hq' := by
    by_cases hx : x = b
    · subst hx
      exact absurd hq (hb q)
    · exact h.unique x q q' ((hne x q hx).mp hq) ((hne x q' hx).mp hq')

theorem Placed.same (h : Placed a out) (hsame : ∀ x q, At a' x q ↔ At a x q) :
    Placed a' out where
  mem x := by
    rw [h.mem x]
    exact exists_congr fun q => (hsame x q).symm
  unique x q q' hq hq' := h.unique x q q' ((hsame x q).mp hq) ((hsame x q').mp hq')

/-- Where an iocb is that a thread has in the phase `r`. -/
def Phase.At (r : Phase PoolCall Empty PoolResult) (b : ℕ) : Prop :=
  r = .waits (.putIOCB b) ∨ r = .returns (.iocb (some b))

theorem at_thread {r : Phase PoolCall Empty PoolResult} (ht : a.phase t = r) :
    At a b (some t) ↔ Phase.At r b := by
  rw [← ht]
  rfl

/-- A thread that has an iocb is the only one, and the callers do not have it. -/
theorem Placed.eq_of_at (h : Placed a out) (hb : At a b p) (hq : q ≠ p) : ¬At a b q :=
  fun hq' => hq (h.unique b q p hq' hb)

variable [DecidableEq Tid]

/-- One thread goes to another phase, and has an iocb before if and only if after. -/
theorem at_goto {r r' : Phase PoolCall Empty PoolResult} (ht : a.phase t = r)
    (hphase : a'.phase = Function.update a.phase t r')
    (hhands : b ∈ inHands a'.history ↔ b ∈ inHands a.history)
    (hr : Phase.At r' b ↔ Phase.At r b) (q : Option Tid) : At a' b q ↔ At a b q := by
  cases q with
  | none => exact hhands
  | some u =>
    by_cases hu : u = t
    · subst hu
      have hu : a'.phase u = r' := by rw [hphase, Function.update_self]
      rw [at_thread ht, at_thread hu]
      exact hr
    · show a'.phase u = _ ∨ a'.phase u = _ ↔ _
      rw [hphase, Function.update_of_ne hu]
      rfl

/-- One thread goes to another phase: who has an iocb afterwards. -/
theorem at_moved {r : Phase PoolCall Empty PoolResult}
    (hphase : a'.phase = Function.update a.phase t r) (hq : q ≠ none) :
    At a' b q ↔ if q = some t then Phase.At r b else At a b q := by
  cases q with
  | none => exact absurd rfl hq
  | some u =>
    show a'.phase u = _ ∨ a'.phase u = _ ↔ _
    rw [hphase, Function.update_apply]
    by_cases hu : u = t
    · rw [if_pos hu, if_pos (by rw [hu])]
      rfl
    · rw [if_neg hu, if_neg (fun h => hu (Option.some.inj h))]
      rfl

/-- `putIOCB` is called. -/
theorem Placed.asked (h : Placed a out) (ht : a.phase t = .outside)
    (hb : b ∈ inHands a.history) : Placed (a.asked t (.putIOCB b)) out := by
  have hout : b ∈ out := (h.mem b).mpr ⟨none, hb⟩
  have hhands : inHands (a.asked t (.putIOCB b)).history = (inHands a.history).erase b :=
    inHands_append a.history (.call t (.putIOCB b))
  rw [← Finset.insert_eq_of_mem hout]
  refine h.put (p := some t) (fun q => ?_) fun x q hx => at_goto ht rfl ?_ ?_ q
  · by_cases hq : q = none
    · subst hq
      show b ∈ inHands _ ↔ _
      rw [hhands]
      simp only [Finset.mem_erase, ne_eq, not_true_eq_false, false_and, reduceCtorEq]
    · rw [at_moved rfl hq]
      split
      · simp only [Phase.At, true_or, *]
      · exact iff_of_false (h.eq_of_at (p := none) hb hq) ‹_›
  · rw [hhands, Finset.mem_erase]
    exact and_iff_right hx
  · simp only [Phase.At, Phase.waits.injEq, PoolCall.putIOCB.injEq, hx.symm, reduceCtorEq,
      or_self]

/-- `getIOCB` takes an iocb. -/
theorem Placed.taken (h : Placed a out) (ht : a.phase t = .waits .getIOCB) (hb : b ∉ out)
    (hphase : a'.phase = Function.update a.phase t (.returns (.iocb (some b))))
    (hhist : a'.history = a.history) : Placed a' (insert b out) := by
  have hnone : ∀ q, ¬At a b q := fun q hq => hb ((h.mem b).mpr ⟨q, hq⟩)
  refine h.put (p := some t) (fun q => ?_) fun x q hx => at_goto ht hphase ?_ ?_ q
  · by_cases hq : q = none
    · subst hq
      show b ∈ inHands _ ↔ _
      rw [hhist]
      exact iff_of_false (hnone none) (Option.some_ne_none t).symm
    · rw [at_moved hphase hq]
      split
      · simp only [Phase.At, or_true, *]
      · exact iff_of_false (hnone q) ‹_›
  · rw [hhist]
  · simp only [Phase.At, Phase.returns.injEq, PoolResult.iocb.injEq, Option.some.injEq,
      hx.symm, Phase.waits.injEq, reduceCtorEq, or_self]

/-- `putIOCB` has put an iocb into the array. -/
theorem Placed.back (h : Placed a out) (ht : a.phase t = .waits (.putIOCB b))
    (hphase : a'.phase = Function.update a.phase t (.returns .void))
    (hhist : a'.history = a.history) : Placed a' (out.erase b) := by
  have hat : At a b (some t) := .inl ht
  refine h.gone (fun q => ?_) fun x q hx => at_goto ht hphase ?_ ?_ q
  · by_cases hq : q = none
    · subst hq
      show ¬b ∈ inHands _
      rw [hhist]
      exact h.eq_of_at hat (Option.some_ne_none t).symm
    · rw [at_moved hphase hq]
      split
      · simp only [Phase.At, Phase.returns.injEq, reduceCtorEq, or_self, not_false_eq_true]
      · exact h.eq_of_at hat ‹_›
  · rw [hhist]
  · simp only [Phase.At, Phase.waits.injEq, PoolCall.putIOCB.injEq, hx.symm,
      Phase.returns.injEq, reduceCtorEq, or_self]

/-- `getIOCB` returns an iocb. -/
theorem Placed.given (h : Placed a out) (ht : a.phase t = .returns (.iocb (some b))) :
    Placed (a.returned t (.iocb (some b))) out := by
  have hat : At a b (some t) := .inr ht
  have hout : b ∈ out := (h.mem b).mpr ⟨some t, hat⟩
  have hhands : inHands (a.returned t (.iocb (some b))).history =
      insert b (inHands a.history) := inHands_append a.history (.ret t (.iocb (some b)))
  rw [← Finset.insert_eq_of_mem hout]
  refine h.put (p := none) (fun q => ?_) fun x q hx => at_goto ht rfl ?_ ?_ q
  · by_cases hq : q = none
    · subst hq
      show b ∈ inHands _ ↔ _
      rw [hhands]
      exact iff_of_true (Finset.mem_insert_self b _) rfl
    · rw [at_moved rfl hq]
      split
      · simp only [Phase.At, reduceCtorEq, or_self, *]
      · exact iff_of_false (h.eq_of_at hat ‹_›) hq
  · rw [hhands, Finset.mem_insert]
    exact or_iff_right hx
  · simp only [Phase.At, Phase.returns.injEq, PoolResult.iocb.injEq, Option.some.injEq,
      hx.symm, reduceCtorEq, or_self]

/-! ### The queue of free iocbs -/

/-- The pool, as it is meant: `getIOCB` takes the iocb that has been free for longest. -/
def serve (free : List ℕ) : PoolCall → PoolResult × List ℕ
  | .getIOCB => (.iocb free.head?, free.tail)
  | .putIOCB iocbBack => (.void, free ++ [iocbBack])

/-- The array holds the queue, and the iocbs that are out are each in one place. -/
structure Holds (n : ℕ) (a : Atomic Tid IocbPool PoolCall PoolResult) (q : List ℕ) : Prop where
  pool : ∃ out handed, Accounts n a.shared out handed ∧ Placed a out ∧
    q = a.shared.free n out.card

omit [DecidableEq Tid] in
theorem free_new : (new n).free n 0 = List.range n := by
  show window id n 0 n = List.range n
  apply List.ext_getElem?
  intro i
  by_cases hi : i < n
  · rw [window_getElem? hi, List.getElem?_range hi, Nat.zero_add, Nat.mod_eq_of_lt hi]
    rfl
  · rw [List.getElem?_eq_none (by rw [length_window]; omega),
      List.getElem?_eq_none (by rw [List.length_range]; omega)]

/-- `getIOCB` takes the head of the free iocbs. -/
theorem Accounts.free_getIOCB (h : Accounts n c out handed) (hg : c.getIOCB = some (b, c')) :
    c.free n out.card = b :: c'.free n (insert b out).card := by
  obtain ⟨-, hb, -⟩ := h.getIOCB hg
  rw [IocbPool.getIOCB] at hg
  split at hg
  · rename_i hlt
    rw [h.used_eq, h.size] at hlt
    obtain ⟨m, hm⟩ : ∃ m, n - out.card = m + 1 := ⟨n - out.card - 1, by omega⟩
    have hm' : n - (insert b out).card = m := by
      rw [Finset.card_insert_of_notMem hb]
      omega
    obtain ⟨rfl, rfl⟩ := Prod.mk.injEq .. ▸ Option.some.inj hg
    rw [free, free, hm, hm', window_eq_cons h.get_lt, h.size]
  · cases hg

/-- `putIOCB` appends to them. -/
theorem Accounts.free_putIOCB (h : Accounts n c out handed) (hb : b ∈ out) :
    (c.putIOCB b).free n (out.erase b).card = c.free n out.card ++ [b] := by
  have hle := h.card_le
  have hpos : 0 < out.card := Finset.card_pos.mpr ⟨b, hb⟩
  have hrest : n - (out.erase b).card = n - out.card + 1 := by
    rw [Finset.card_erase_of_mem hb]
    omega
  rw [free, hrest]
  show window (Function.update c.iocb c.iocbPut b) n c.iocbGet (n - out.card + 1) = _
  rw [h.put_eq, window_update_end (by omega)]
  rfl

omit [DecidableEq Tid] in
theorem Holds.initial (hn : 0 < n) :
    Holds n (.initial (.new n) : Atomic Tid IocbPool PoolCall PoolResult) (List.range n) where
  pool := by
    have hno : ∀ b p, ¬At (.initial (.new n) : Atomic Tid IocbPool PoolCall PoolResult) b p := by
      intro b p hp
      cases p with
      | none => exact Finset.notMem_empty b hp
      | some t => rcases hp with hp | hp <;> cases hp
    refine ⟨∅, [], accounts_new hn, ⟨fun b => ?_, fun b p q hp => absurd hp (hno b p)⟩,
      free_new.symm⟩
    exact iff_of_false (Finset.notMem_empty b) (not_exists.mpr (hno b))

/-- **The single steps of the pool are those of the queue.** -/
theorem Holds.ran {q : List ℕ} {o : PoolCall} (h : Holds n a q) (ht : a.phase t = .waits o) :
    (serve q o).1 = (a.shared.call o).1 ∧ Holds n (a.ran call t o) (serve q o).2 := by
  obtain ⟨out, handed, hacc, hplaced, rfl⟩ := h.pool
  cases o with
  | getIOCB =>
    cases hget : a.shared.getIOCB with
    | none =>
      -- all iocbs are out
      have hcall : a.shared.call .getIOCB = (.iocb none, a.shared) := by
        simp only [call, hget]
      have hnil : a.shared.free n out.card = [] := by
        rw [List.eq_nil_iff_forall_not_mem]
        intro b hb
        obtain ⟨hlt, hb⟩ := (hacc.mem_free b).mp hb
        rw [hacc.getIOCB_eq_none_iff.mp hget] at hb
        exact hb (Finset.mem_range.mpr hlt)
      rw [hnil, hcall]
      refine ⟨rfl, ⟨out, handed, ?_, hplaced.same fun x p => ?_, ?_⟩⟩
      · rw [Atomic.ran, hcall]
        exact hacc
      · have hphase : (a.ran call t .getIOCB).phase = _ := rfl
        apply at_goto ht hphase Iff.rfl
        simp only [hcall, Phase.At, Phase.returns.injEq, PoolResult.iocb.injEq,
          Phase.waits.injEq, reduceCtorEq, or_self]
      · rw [Atomic.ran, hcall]
        exact hnil.symm
    | some x =>
      obtain ⟨b, c'⟩ := x
      have hcall : a.shared.call .getIOCB = (.iocb (some b), c') := by
        simp only [call, hget]
      obtain ⟨-, hb, hacc'⟩ := hacc.getIOCB hget
      rw [hacc.free_getIOCB hget, hcall]
      refine ⟨rfl, ⟨insert b out, handed ++ [b], ?_, hplaced.taken ht hb ?_ rfl, ?_⟩⟩
      · rw [Atomic.ran, hcall]
        exact hacc'
      · rw [Atomic.ran, hcall]
        rfl
      · rw [Atomic.ran, hcall]
        rfl
  | putIOCB b =>
    have hout : b ∈ out := (hplaced.mem b).mpr ⟨some t, .inl ht⟩
    exact ⟨rfl, ⟨out.erase b, handed, hacc.putIOCB hout, hplaced.back ht rfl rfl,
      (hacc.free_putIOCB hout).symm⟩⟩

/-- The pool refines the queue. -/
theorem pool_refines (n : ℕ) :
    Simulation (Atomic.next call) (Atomic.Allowed Handed) (Atomic.next serve)
      (Atomic.Allowed Handed) (@Atomic.Agrees Tid _ _ _ _ (Holds n)) := by
  apply Atomic.refines
  · intro a q t o h ht hP
    obtain ⟨out, handed, hacc, hplaced, rfl⟩ := h.pool
    cases o with
    | getIOCB =>
      refine ⟨out, handed, hacc, hplaced.same fun x p => ?_, rfl⟩
      refine at_goto ht rfl ?_ ?_ p
      · rw [Atomic.asked, inHands_append]
        rfl
      · simp only [Phase.At, Phase.waits.injEq, reduceCtorEq, or_self]
    | putIOCB b => exact ⟨out, handed, hacc, hplaced.asked ht hP, rfl⟩
  · intro a q t o h ht
    exact h.ran ht
  · intro a q t r h ht
    obtain ⟨out, handed, hacc, hplaced, rfl⟩ := h.pool
    cases r with
    | iocb x =>
      cases x with
      | some b => exact ⟨out, handed, hacc, hplaced.given ht, rfl⟩
      | none =>
        refine ⟨out, handed, hacc, hplaced.same fun x p => ?_, rfl⟩
        refine at_goto ht rfl ?_ ?_ p
        · rw [Atomic.returned, inHands_append]
          rfl
        · simp only [Phase.At, Phase.returns.injEq, PoolResult.iocb.injEq, reduceCtorEq, or_self]
    | void =>
      refine ⟨out, handed, hacc, hplaced.same fun x p => ?_, rfl⟩
      refine at_goto ht rfl ?_ ?_ p
      · rw [Atomic.returned, inHands_append]
        rfl
      · simp only [Phase.At, Phase.returns.injEq, reduceCtorEq, or_self]

/-! ### The array is not left -/

/-- The cursor that a statement uses is inside the array of `n` slots. -/
def Fits (n : ℕ) (x : IocbPool × PoolPc) : Prop :=
  match x.2 with
  | .testUsed | .loadUsed | .storeUsed _ | .loadGet => x.1.iocbGet < n
  | .storeGet i | .readSlot i => i < n
  | .loadUsedBack _ | .storeUsedBack _ _ | .loadPut _ => x.1.iocbPut < n
  | .storePut _ i | .writeSlot _ i => i < n
  | .wrapGet _ | .wrapPut => True

theorem Fits.access {x y : IocbPool × PoolPc} (h : Fits n x) (hxy : poolBody.Access x y) :
    Fits n y := by
  obtain ⟨c, l⟩ := x
  obtain ⟨c', l'⟩ := y
  change poolStep c l = (c', .inl l') at hxy
  cases l with
  | testUsed =>
    simp only [poolStep, Prod.mk.injEq] at hxy
    obtain ⟨rfl, hl⟩ := hxy
    split at hl
    · obtain rfl := Sum.inl.inj hl
      exact h
    · cases hl
  | wrapGet b => cases (Prod.mk.inj hxy).2
  | wrapPut => cases (Prod.mk.inj hxy).2
  | _ =>
    obtain ⟨rfl, hl⟩ := Prod.mk.inj hxy
    obtain rfl := Sum.inl.inj hl
    first | exact h | trivial

/-- A call that starts with both cursors inside the array stays inside. -/
theorem Fits.run {o : PoolCall} {l₀ : PoolPc} {x : IocbPool × PoolPc} (hget : c.iocbGet < n)
    (hput : c.iocbPut < n) (hstart : poolBody.start o = .inl l₀)
    (hrun : Relation.ReflTransGen poolBody.Access (c, l₀) x) : Fits n x := by
  induction hrun with
  | refl =>
    cases o with
    | getIOCB =>
      obtain rfl := Sum.inl.inj hstart
      exact hget
    | putIOCB b =>
      obtain rfl := Sum.inl.inj hstart
      exact hput
  | tail _ hstep ih => exact ih.access hstep

theorem Fits.slot_lt {l : PoolPc} {i : ℕ} (h : Fits n (c, l)) (hi : l.slot = some i) :
    i < n := by
  cases l with
  | readSlot j | writeSlot _ j =>
    obtain rfl := Option.some.inj hi
    exact h
  | _ => cases hi

/-! ### The pool is a queue of free iocbs -/

/-- **The pool is linearizable.**  Whatever threads call `getIOCB` and `putIOCB`, and
wherever they are interrupted, the calls and returns are those of a queue that holds the
free iocbs and serves each call in one step; no access is outside of the array; and the
iocb that a call is about to return is with nobody else. -/
theorem pool_is_free_list {m : Machine Tid IocbPool PoolCall PoolPc PoolResult} (hn : 0 < n)
    (hr : Reaches (Machine.next poolBody) (Machine.Allowed Handed) (.initial (.new n)) m) :
    (∃ x, Reaches (Atomic.next serve) (Atomic.Allowed Handed) (.initial (List.range n)) x ∧
      x.history = m.history ∧ ∀ t, x.phase t = (m.phase t).atomic) ∧
    (∀ t o l i, m.phase t = .inside o l → l.slot = some i → i < n) ∧
    (∀ t b, (m.phase t).atomic = .returns (.iocb (some b)) → b ∉ inHands m.history ∧
      ∀ u, (m.phase u).atomic = .returns (.iocb (some b)) → u = t) := by
  obtain ⟨a, ha, hshows⟩ := Body.reaches poolBody_does hr
  have hinitial : Atomic.Agrees (Holds n)
      (.initial (.new n) : Atomic Tid IocbPool PoolCall PoolResult) (.initial (List.range n)) :=
    ⟨rfl, rfl, Holds.initial hn⟩
  obtain ⟨x, hx, hagree⟩ := (pool_refines n).reaches hinitial ha
  obtain ⟨out, handed, hacc, hplaced, -⟩ := hagree.shared.pool
  refine ⟨⟨x, hx, hagree.history.trans hshows.history, fun t => ?_⟩, fun t o l i hin hi => ?_,
    fun t b ht => ?_⟩
  · rw [hagree.phase, hshows.phase t]
  · obtain ⟨l₀, hstart, hrun⟩ := hshows.under t o l hin
    exact (Fits.run hacc.get_lt hacc.put_lt hstart hrun).slot_lt hi
  · have hat : At a b (some t) := .inr ((hshows.phase t).trans ht)
    refine ⟨fun hb => ?_, fun u hu => ?_⟩
    · rw [← hshows.history] at hb
      exact hplaced.eq_of_at hat (Option.some_ne_none t).symm hb
    · have hat' : At a b (some u) := .inr ((hshows.phase u).trans hu)
      exact Option.some.inj (hplaced.unique b _ _ hat' hat)

instance (history : List (Event Tid PoolCall PoolResult)) (t : Tid) (o : PoolCall) :
    Decidable (Handed history t o) :=
  match o with
  | .putIOCB iocbBack => inferInstanceAs (Decidable (iocbBack ∈ inHands history))
  | .getIOCB => inferInstanceAs (Decidable True)

instance (m : Machine Tid IocbPool PoolCall PoolPc PoolResult) (l : Monitor.Label Tid PoolCall) :
    Decidable (Machine.Allowed Handed m l) :=
  match l with
  | .call t o => inferInstanceAs (Decidable (Handed m.history t o))
  | .lock _ | .access _ | .unlock _ | .ret _ => inferInstanceAs (Decidable True)

/-- Two threads ask for the only iocb; the one that has the lock is stopped between the load
and the store of `used`.  The other finds the pool used up. -/
def contended : List (Monitor.Label Bool PoolCall) :=
  [.call true .getIOCB, .call false .getIOCB, .lock true, .access true, .access true,
    .access true, .access true, .access true, .access true, .access true, .unlock true,
    .lock false, .access false, .ret true, .call true (.putIOCB 0), .unlock false, .ret false]

theorem pool_is_free_list_contended :
    ∃ m : Machine Bool IocbPool PoolCall PoolPc PoolResult,
      Reaches (Machine.next poolBody) (Machine.Allowed Handed) (.initial (.new 1)) m ∧
      m.history = [.call true .getIOCB, .call false .getIOCB, .ret true (.iocb (some 0)),
        .call true (.putIOCB 0), .ret false (.iocb none)] ∧
      ∃ x, Reaches (Atomic.next serve) (Atomic.Allowed Handed) (.initial (List.range 1)) x ∧
        x.history = m.history ∧ ∀ t, x.phase t = (m.phase t).atomic := by
  obtain ⟨m, hr, hm⟩ := exists_of_exec (Machine.next poolBody) (Machine.Allowed Handed)
    (.initial (.new 1)) contended
    (fun m : Machine Bool IocbPool PoolCall PoolPc PoolResult =>
      m.history = [.call true .getIOCB, .call false .getIOCB, .ret true (.iocb (some 0)),
        .call true (.putIOCB 0), .ret false (.iocb none)]) (by decide)
  exact ⟨m, hr, hm, (pool_is_free_list (by decide) hr).1⟩

end IocbPool

/-! ### The cache, statement by statement -/

/-- The statements, in their order; what a statement has loaded it hands on. -/
inductive CachePc (Callback : Type*)
  /-- `if (available <= 0)` -/
  | testEmpty
  /-- `Callback retValue = (Callback) pool[get]` -/
  | loadGet
  | readSlot (i : ℕ)
  /-- `pool[get] = null` -/
  | loadGetAgain (retValue : Option Callback)
  | clearSlot (retValue : Option Callback) (i : ℕ)
  | testNull (retValue : Option Callback)
  /-- `available--` -/
  | loadTaken (retValue : Callback)
  | storeTaken (retValue : Callback) (available : ℕ)
  /-- `get++` -/
  | loadCursor (retValue : Callback)
  | storeCursor (retValue : Callback) (get : ℕ)
  /-- `if (get >= size)` -/
  | wrapGet (retValue : Callback)
  /-- `if (available < size)` -/
  | testRoom (callback : Callback)
  | loadAvailable (callback : Callback)
  | storeAvailable (callback : Callback) (available : ℕ)
  /-- `pool[put++] = callback` -/
  | loadPut (callback : Callback)
  | storePut (callback : Callback) (put : ℕ)
  | writeSlot (callback : Callback) (i : ℕ)
  | wrapPut
  deriving DecidableEq, Repr

/-- The slot of the array a statement reads or writes. -/
def CachePc.slot {Callback : Type*} : CachePc Callback → Option ℕ
  | .readSlot i => some i
  | .clearSlot _ i => some i
  | .writeSlot _ i => some i
  | _ => none

namespace CallbackCache

variable {Callback : Type*} {size n : ℕ} {c c' : CallbackCache Callback}

def cacheStart : CacheMethod Callback → CachePc Callback ⊕ CacheResult Callback
  | .get => .inl .testEmpty
  -- `put(null)` returns in front of the lock
  | .put none => .inr (.value none)
  | .put (some callback) => .inl (.testRoom callback)

def cacheStep (c : CallbackCache Callback) :
    CachePc Callback → CallbackCache Callback × (CachePc Callback ⊕ CacheResult Callback)
  | .testEmpty => (c, if c.available ≤ 0 then .inr (.value none) else .inl .loadGet)
  | .loadGet => (c, .inl (.readSlot c.getAt))
  | .readSlot i =>
    match c.pool[i]? with
    | none => (c, .inr (.threw .arrayIndexOutOfBounds))
    | some retValue => (c, .inl (.loadGetAgain retValue))
  | .loadGetAgain retValue => (c, .inl (.clearSlot retValue c.getAt))
  | .clearSlot retValue i =>
    if i < c.pool.length then ({ c with pool := c.pool.set i none }, .inl (.testNull retValue))
    else (c, .inr (.threw .arrayIndexOutOfBounds))
  | .testNull none => (c, .inr (.threw .nullPointer))
  | .testNull (some retValue) => (c, .inl (.loadTaken retValue))
  | .loadTaken retValue => (c, .inl (.storeTaken retValue c.available))
  | .storeTaken retValue available =>
    ({ c with available := available - 1 }, .inl (.loadCursor retValue))
  | .loadCursor retValue => (c, .inl (.storeCursor retValue c.getAt))
  | .storeCursor retValue get => ({ c with getAt := get + 1 }, .inl (.wrapGet retValue))
  | .wrapGet retValue =>
    (if c.size ≤ c.getAt then { c with getAt := 0 } else c, .inr (.value (some retValue)))
  | .testRoom callback =>
    (c, if c.available < c.size then .inl (.loadAvailable callback) else .inr .this)
  | .loadAvailable callback => (c, .inl (.storeAvailable callback c.available))
  | .storeAvailable callback available =>
    ({ c with available := available + 1 }, .inl (.loadPut callback))
  | .loadPut callback => (c, .inl (.storePut callback c.putAt))
  | .storePut callback put => ({ c with putAt := put + 1 }, .inl (.writeSlot callback put))
  | .writeSlot callback i =>
    if i < c.pool.length then ({ c with pool := c.pool.set i (some callback) }, .inl .wrapPut)
    else (c, .inr (.threw .arrayIndexOutOfBounds))
  | .wrapPut => (if c.size ≤ c.putAt then { c with putAt := 0 } else c, .inr .this)

/-- The methods between the ends of `synchronized (lock)`. -/
def cacheBody :
    Body (CallbackCache Callback) (CacheMethod Callback) (CachePc Callback)
      (CacheResult Callback) :=
  ⟨cacheStart, cacheStep⟩

theorem ends_get (c : CallbackCache Callback) :
    cacheBody.Ends (c, .testEmpty) c.get.1 c.get.2 := by
  by_cases hempty : c.available ≤ 0
  · apply Body.Ends.last
    simp only [cacheBody, cacheStep, get, if_pos hempty]
  have htest : cacheBody.step c .testEmpty = (c, .inl .loadGet) := by
    simp only [cacheBody, cacheStep, if_neg hempty]
  apply Body.Ends.access htest
  apply Body.Ends.access rfl
  cases hslot : c.pool[c.getAt]? with
  | none =>
    apply Body.Ends.last
    simp only [cacheBody, cacheStep, get, if_neg hempty, hslot]
  | some retValue =>
    obtain ⟨hlt, -⟩ := List.getElem?_eq_some_iff.mp hslot
    have hread : cacheBody.step c (.readSlot c.getAt) = (c, .inl (.loadGetAgain retValue)) := by
      simp only [cacheBody, cacheStep, hslot]
    have hclear : cacheBody.step c (.clearSlot retValue c.getAt) =
        ({ c with pool := c.pool.set c.getAt none }, .inl (.testNull retValue)) := by
      simp only [cacheBody, cacheStep, if_pos hlt]
    apply Body.Ends.access hread
    apply Body.Ends.access rfl
    apply Body.Ends.access hclear
    cases retValue with
    | none =>
      apply Body.Ends.last
      simp only [cacheBody, cacheStep, get, if_neg hempty, hslot, Option.isNone_none, if_true]
    | some callback =>
      apply Body.Ends.access rfl
      apply Body.Ends.access rfl
      apply Body.Ends.access rfl
      apply Body.Ends.access rfl
      apply Body.Ends.access rfl
      apply Body.Ends.last
      simp only [cacheBody, cacheStep, get, if_neg hempty, hslot, Option.isNone_some,
        Bool.false_eq_true, if_false, Cyclic.next]
      split <;> rfl

theorem ends_put (c : CallbackCache Callback) (callback : Callback) :
    cacheBody.Ends (c, .testRoom callback) (c.store callback).1 (c.store callback).2 := by
  by_cases hroom : c.available < c.size
  · have htest : cacheBody.step c (.testRoom callback) = (c, .inl (.loadAvailable callback)) := by
      simp only [cacheBody, cacheStep, if_pos hroom]
    apply Body.Ends.access htest
    apply Body.Ends.access rfl
    apply Body.Ends.access rfl
    apply Body.Ends.access rfl
    apply Body.Ends.access rfl
    by_cases hlt : c.putAt < c.pool.length
    · have hwrite : cacheBody.step
          { c with available := c.available + 1, putAt := c.putAt + 1 }
          (.writeSlot callback c.putAt) =
            ({ c with
              available := c.available + 1
              putAt := c.putAt + 1
              pool := c.pool.set c.putAt (some callback) }, .inl .wrapPut) := by
        simp only [cacheBody, cacheStep, if_pos hlt]
      apply Body.Ends.access hwrite
      apply Body.Ends.last
      simp only [cacheBody, cacheStep, store, if_pos hroom, if_pos hlt, Cyclic.next]
      split <;> rfl
    · apply Body.Ends.last
      simp only [cacheBody, cacheStep, store, if_pos hroom, if_neg hlt]
  · apply Body.Ends.last
    simp only [cacheBody, cacheStep, store, if_neg hroom]

/-- Alone, the statements do what the single steps do. -/
theorem cacheBody_does : (@cacheBody Callback).Does call where
  locked c m l hl := by
    match m with
    | .get =>
      obtain rfl := Sum.inl.inj hl
      exact ends_get c
    | .put none => cases hl
    | .put (some callback) =>
      obtain rfl := Sum.inl.inj hl
      exact ends_put c callback
  quick c m r hr := by
    match m with
    | .get => cases hr
    | .put none =>
      obtain rfl := Sum.inr.inj hr
      rfl
    | .put (some callback) => cases hr

/-- The cursor that a statement uses is inside the array of `n` slots. -/
def Fits (n : ℕ) (x : CallbackCache Callback × CachePc Callback) : Prop :=
  match x.2 with
  | .testEmpty => 0 < x.1.available → x.1.getAt < n
  | .loadGet | .loadGetAgain _ => x.1.getAt < n
  | .readSlot i => i < n ∧ x.1.getAt < n
  | .clearSlot _ i => i < n
  | .testRoom _ => x.1.available < x.1.size → x.1.putAt < n
  | .loadAvailable _ | .storeAvailable _ _ | .loadPut _ => x.1.putAt < n
  | .storePut _ i | .writeSlot _ i => i < n
  | _ => True

theorem Fits.access {x y : CallbackCache Callback × CachePc Callback} (h : Fits n x)
    (hxy : cacheBody.Access x y) : Fits n y := by
  obtain ⟨c, l⟩ := x
  obtain ⟨c', l'⟩ := y
  change cacheStep c l = (c', .inl l') at hxy
  cases l with
  | testEmpty =>
    simp only [cacheStep, Prod.mk.injEq] at hxy
    obtain ⟨rfl, hl⟩ := hxy
    split at hl
    · cases hl
    · rename_i hpos
      obtain rfl := Sum.inl.inj hl
      exact h (Nat.not_le.mp hpos)
  | testRoom callback =>
    simp only [cacheStep, Prod.mk.injEq] at hxy
    obtain ⟨rfl, hl⟩ := hxy
    split at hl
    · rename_i hlt
      obtain rfl := Sum.inl.inj hl
      exact h hlt
    · cases hl
  | readSlot i =>
    simp only [cacheStep] at hxy
    split at hxy
    · cases (Prod.mk.inj hxy).2
    · obtain ⟨rfl, hl⟩ := Prod.mk.inj hxy
      obtain rfl := Sum.inl.inj hl
      exact h.2
  | clearSlot retValue i =>
    simp only [cacheStep] at hxy
    split at hxy
    · obtain ⟨rfl, hl⟩ := Prod.mk.inj hxy
      obtain rfl := Sum.inl.inj hl
      trivial
    · cases (Prod.mk.inj hxy).2
  | writeSlot callback i =>
    simp only [cacheStep] at hxy
    split at hxy
    · obtain ⟨rfl, hl⟩ := Prod.mk.inj hxy
      obtain rfl := Sum.inl.inj hl
      trivial
    · cases (Prod.mk.inj hxy).2
  | testNull retValue =>
    cases retValue with
    | none => cases (Prod.mk.inj hxy).2
    | some callback =>
      obtain ⟨rfl, hl⟩ := Prod.mk.inj hxy
      obtain rfl := Sum.inl.inj hl
      trivial
  | loadGet =>
    obtain ⟨rfl, hl⟩ := Prod.mk.inj hxy
    obtain rfl := Sum.inl.inj hl
    exact ⟨h, h⟩
  | wrapGet retValue => cases (Prod.mk.inj hxy).2
  | wrapPut => cases (Prod.mk.inj hxy).2
  | _ =>
    obtain ⟨rfl, hl⟩ := Prod.mk.inj hxy
    obtain rfl := Sum.inl.inj hl
    exact h

/-- A call on a cache that stores a queue stays inside the array. -/
theorem Fits.run {q : List Callback} {m : CacheMethod Callback} {l₀ : CachePc Callback}
    {x : CallbackCache Callback × CachePc Callback} (h : Stores size c q)
    (hstart : cacheBody.start m = .inl l₀)
    (hrun : Relation.ReflTransGen cacheBody.Access (c, l₀) x) : Fits size x := by
  induction hrun with
  | refl =>
    have hroom := h.room
    match m with
    | .get =>
      obtain rfl := Sum.inl.inj hstart
      intro hpos
      rw [h.available] at hpos
      exact h.getAt_lt (by omega)
    | .put none => cases hstart
    | .put (some callback) =>
      obtain rfl := Sum.inl.inj hstart
      intro hlt
      rw [h.available, h.size_eq] at hlt
      have hpos : 0 < size := by omega
      rw [h.putAt_eq hpos]
      exact Nat.mod_lt _ hpos
  | tail _ hstep ih => exact ih.access hstep

theorem Fits.slot_lt {l : CachePc Callback} {i : ℕ} (h : Fits n (c, l))
    (hi : l.slot = some i) : i < n := by
  cases l with
  | readSlot j =>
    obtain rfl := Option.some.inj hi
    exact h.1
  | clearSlot _ j | writeSlot _ j =>
    obtain rfl := Option.some.inj hi
    exact h
  | _ => cases hi

/-! ### The cache is a queue of bounded capacity -/

variable {Tid : Type*}

/-- The cache stores the queue, and no call has thrown. -/
structure Caches (size : ℕ)
    (a : Atomic Tid (CallbackCache Callback) (CacheMethod Callback) (CacheResult Callback))
    (q : Fifo Callback) : Prop where
  stores : Stores size a.shared q.queue
  lawful : q.Lawful
  phase : ∀ t e, a.phase t ≠ .returns (.threw e)
  history : ∀ t e, .ret t (.threw e) ∉ a.history

theorem Caches.initial (size : ℕ) :
    Caches size (.initial (.new size) :
      Atomic Tid (CallbackCache Callback) (CacheMethod Callback) (CacheResult Callback))
      (.start []) where
  stores := stores_new size
  lawful := Fifo.lawful_start []
  phase := by rintro t e ⟨⟩
  history := fun _ _ => List.not_mem_nil

variable [DecidableEq Tid]

/-- The cache refines the queue. -/
theorem cache_refines (size : ℕ) :
    Simulation (Atomic.next call) (Atomic.Allowed fun _ _ _ => True) (Atomic.next (serve size))
      (Atomic.Allowed fun _ _ _ => True)
      (@Atomic.Agrees Tid _ _ _ _ (@Caches Callback Tid size)) := by
  have hmoved : ∀ {f : Tid → Phase (CacheMethod Callback) Empty (CacheResult Callback)} {t p},
      (∀ u e, f u ≠ .returns (.threw e)) → (∀ e, p ≠ .returns (.threw e)) →
      ∀ u e, Function.update f t p u ≠ .returns (.threw e) := by
    intro f t p hf hp u e
    rw [Function.update_apply]
    split
    · exact hp e
    · exact hf u e
  apply Atomic.refines
  · intro a q t m h ht _
    refine ⟨h.stores, h.lawful, hmoved h.phase (by rintro e ⟨⟩), fun u e hmem => ?_⟩
    rcases List.mem_append.mp hmem with hmem | hmem
    · exact h.history u e hmem
    · cases List.mem_singleton.mp hmem
  · intro a q t m h ht
    obtain ⟨hres, hstores⟩ := h.stores.call m
    refine ⟨hres.symm, hstores, (step_serve size q m).lawful h.lawful, hmoved h.phase ?_,
      h.history⟩
    intro e he
    have hthrew : (serve size q m).1 = .threw e := hres ▸ Phase.returns.inj he
    exact serve_ne_threw e hthrew
  · intro a q t r h ht
    refine ⟨h.stores, h.lawful, hmoved h.phase (by rintro e ⟨⟩), fun u e hmem => ?_⟩
    rcases List.mem_append.mp hmem with hmem | hmem
    · exact h.history u e hmem
    · obtain ⟨-, rfl⟩ := Event.ret.inj (List.mem_singleton.mp hmem)
      exact h.phase t e ht

/-- **The cache is linearizable.**  Whatever threads call `put` and `get`, and wherever they
are interrupted, the calls and returns are those of a queue of capacity `size` that serves
each call in one step; no access is outside of the array, and no call throws. -/
theorem cache_is_bounded_queue
    {m : Machine Tid (CallbackCache Callback) (CacheMethod Callback) (CachePc Callback)
      (CacheResult Callback)}
    (hr : Reaches (Machine.next cacheBody) (Machine.Allowed fun _ _ _ => True)
      (.initial (.new size)) m) :
    (∃ x, Reaches (Atomic.next (serve size)) (Atomic.Allowed fun _ _ _ => True)
        (.initial (.start [])) x ∧
      x.history = m.history ∧ (∀ t, x.phase t = (m.phase t).atomic) ∧
      x.shared.popped ++ x.shared.queue = x.shared.pushed ∧ x.shared.queue.length ≤ size) ∧
    (∀ t o l i, m.phase t = .inside o l → l.slot = some i → i < size) ∧
    (∀ t e, .ret t (.threw e) ∉ m.history) := by
  obtain ⟨a, ha, hshows⟩ := Body.reaches cacheBody_does hr
  have hinitial : Atomic.Agrees (Caches size) (.initial (.new size) :
      Atomic Tid (CallbackCache Callback) (CacheMethod Callback) (CacheResult Callback))
      (.initial (.start [])) := ⟨rfl, rfl, Caches.initial size⟩
  obtain ⟨x, hx, hagree⟩ := (cache_refines size).reaches hinitial ha
  refine ⟨⟨x, hx, hagree.history.trans hshows.history, fun t => ?_, hagree.shared.lawful,
    hagree.shared.stores.room⟩, fun t o l i hin hi => ?_, fun t e hmem => ?_⟩
  · rw [hagree.phase, hshows.phase t]
  · obtain ⟨l₀, hstart, hrun⟩ := hshows.under t o l hin
    exact (Fits.run hagree.shared.stores hstart hrun).slot_lt hi
  · rw [← hshows.history] at hmem
    exact hagree.shared.history t e hmem

/-- A thread that puts is stopped inside the lock, and the one that gets waits for it. -/
theorem cache_is_bounded_queue_contended :
    ∃ m : Machine Bool (CallbackCache ℕ) (CacheMethod ℕ) (CachePc ℕ) (CacheResult ℕ),
      Reaches (Machine.next cacheBody) (Machine.Allowed fun _ _ _ => True)
        (.initial (.new 1)) m ∧
      m.history = [.call true (.put (some 7)), .call false .get, .ret true .this,
        .ret false (.value (some 7))] ∧
      ∀ t e, .ret t (.threw e) ∉ m.history := by
  obtain ⟨m, hr, hm⟩ := exists_of_exec (Machine.next cacheBody) (fun _ _ => True)
    (.initial (.new 1))
    ([.call true (.put (some 7)), .lock true, .access true, .call false .get] ++
      List.replicate 6 (.access true) ++ [.unlock true, .lock false] ++
      List.replicate 11 (.access false) ++ [.ret true, .unlock false, .ret false])
    (fun m : Machine Bool (CallbackCache ℕ) (CacheMethod ℕ) (CachePc ℕ) (CacheResult ℕ) =>
      m.history = [.call true (.put (some 7)), .call false .get, .ret true .this,
        .ret false (.value (some 7))]) (by decide)
  obtain ⟨ls, hrun⟩ := hr
  have hr : Reaches (Machine.next cacheBody) (Machine.Allowed fun _ _ _ => True)
      (.initial (.new 1)) m := by
    refine ⟨ls, hrun.mono fun _ l _ => ?_⟩
    cases l <;> trivial
  exact ⟨m, hr, hm, (cache_is_bounded_queue hr).2.2⟩

end CallbackCache

end ArtemisNative
