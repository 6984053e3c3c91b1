/-
ArtemisNative/EventsBuffer.lean

The completed events and the pool.

`newContext` allocates `queueSize` entries for `control->events`, and `poll` passes whatever
`max` the application gives on to `ringio_get_events`.  That there are never more than
`queueSize` completed events follows from the pool alone: each of them stands for an iocb
that the pool has handed out and not got back.

The argument counts and does not ask which iocb is which, so it needs nothing of the callers:
any number of threads may submit, poll in both ways and close at the same time, and even iocbs
that are put back for one another do no harm.  A thread owes the pool the iocbs of the rest of
its batch (`Pc.owes`); what is owed, in flight or completed never exceeds `used`
(`Bounded`).  The kernel must not deliver an event twice.

What this means for the reads, one memory access after the other, is `Readers`'.
-/
import ArtemisNative.Threads
import ArtemisNative.Lib.Shares
import Mathlib.Algebra.Order.BigOperators.Group.Finset

namespace ArtemisNative

open Transition

variable {Tid : Type} [DecidableEq Tid] {cfg : Config} {s s' : State Tid} {t : Tid}
variable {ans : Answer} {l : Label Tid} {env : Process}

/-! ### What threads owe -/

/-- The iocbs of its batch that `blockedPoll` has not put back or passed over; the one at hand
counts up to `putIOCB`. -/
def Stage.owes (f : Frame) : Stage → ℕ
  | .test => f.result - f.i
  | .stop | .sync | .onError | .take | .put _ => f.result - (f.i + 1) + 1
  | .done _ | .inDone _ | .release _ | .deleteRef _ | .warn => f.result - (f.i + 1)

def PollStage.owes (f : PollFrame) : PollStage → ℕ
  | .onError => f.result - f.i
  | .store | .deleteRef | .put => f.result - (f.i + 1) + 1

/-- The iocbs that a thread has got from the pool, or from an event, and not passed on. -/
def Pc.owes : Pc → ℕ
  | .submit (.prep _ _) | .submit (.ioSubmit _ _) | .submit (.deleteRef _ _)
  | .submit (.putIOCB _ _) => 1
  | .blocked (.event f st) => st.owes f
  | .poll (.event f st) => st.owes f
  | .close (.prep _) | .close (.ioSubmit _) | .close (.putIOCB _ _) => 1
  | .close (.put i result) => result - i
  | _ => 0

/-- The iocbs that are out of the pool beyond the ones in flight and completed. -/
def State.spare (s : State Tid) : ℤ :=
  s.pool.used - s.inflight.length - s.ring.length

/-! ### One step -/

omit [DecidableEq Tid] in
theorem getIOCB_used {pool pool' : IocbPool} {b : ℕ} (h : pool.getIOCB = some (b, pool')) :
    pool.used < pool.queueSize ∧ pool'.used = pool.used + 1 ∧
      pool'.queueSize = pool.queueSize := by
  unfold IocbPool.getIOCB at h
  split at h
  · next hlt =>
    obtain ⟨-, rfl⟩ := Prod.mk.inj (Option.some.inj h)
    exact ⟨hlt, rfl, rfl⟩
  · cases h

/-- What a thread passes on in a step, its iocbs or those of its batch, it no longer owes. -/
theorem EventMoves.spare {f : Frame} {st : Stage} (hm : EventMoves cfg s t ans f st s')
    (hpc : s.pc t = .blocked (.event f st)) :
    s.spare + (s'.pc t).owes ≤ s'.spare + (s.pc t).owes := by
  rw [hpc]
  cases hm <;>
    simp only [Pc.owes, Stage.owes, State.spare, State.goto, Function.update_self, State.record,
      State.putBack, State.setIocb, State.deleteRef, IocbPool.putIOCB] <;>
    omega

theorem next_spare (hn : next cfg s l = some s') (honce : DeliversOnce l) :
    (l.tid? = none → s.spare ≤ s'.spare) ∧
    ∀ t, l.tid? = some t → s.spare + (s'.pc t).owes ≤ s'.spare + (s.pc t).owes := by
  have hmine : ∀ {t : Tid}, l.tid? = some t →
      s.spare + (s'.pc t).owes ≤ s'.spare + (s.pc t).owes →
      (l.tid? = none → s.spare ≤ s'.spare) ∧
        ∀ t, l.tid? = some t → s.spare + (s'.pc t).owes ≤ s'.spare + (s.pc t).owes := by
    intro t ht h
    refine ⟨fun hnone => absurd (hnone.symm.trans ht) nofun, fun u hu => ?_⟩
    obtain rfl := Option.some.inj (ht.symm.trans hu)
    exact h
  cases next_moves hn with
  | call t o m _ hpc hm =>
    refine hmine (t := t) rfl ?_
    rw [hpc]
    cases hm <;> simp [Pc.owes, State.spare, State.goto]
  | submit t ans q _ hpc hm =>
    refine hmine (t := t) rfl ?_
    rw [hpc]
    cases hm with
    | gotIOCB a b pool hg =>
      obtain ⟨-, hused, -⟩ := getIOCB_used hg
      simp only [Pc.owes, State.spare, State.goto, State.handOut, Function.update_self, hused]
      omega
    | accepted a b _ _ =>
      simp only [Pc.owes, State.spare, State.goto, State.accept, Function.update_self,
        List.length_append, List.length_singleton]
      omega
    | _ =>
      simp only [Pc.owes, State.spare, State.goto, Function.update_self, State.setIocb,
        State.deleteRef, State.putBack, IocbPool.putIOCB]
      omega
  | blocked t ans q _ hpc hm =>
    refine hmine (t := t) rfl ?_
    cases hm with
    | event f st _ hm => exact hm.spare hpc
    | readInterrupted f _ => exact le_rfl
    | read f k _ hk =>
      rw [hpc]
      simp only [Pc.owes, Stage.owes, State.spare, State.goto, State.getEvents,
        Function.update_self, List.length_drop]
      omega
    | _ =>
      rw [hpc]
      simp [Pc.owes, State.spare, State.goto]
  | poll t ans q _ hpc hm =>
    refine hmine (t := t) rfl ?_
    rw [hpc]
    cases hm with
    | read callbacks min max k _ hk =>
      simp only [Pc.owes, PollStage.owes, State.spare, State.goto, State.getEvents,
        Function.update_self, List.length_drop]
      omega
    | _ =>
      simp only [Pc.owes, PollStage.owes, State.spare, State.goto, Function.update_self,
        State.record, State.deleteRef, State.putBack, IocbPool.putIOCB, PollFrame.store]
      omega
  | close t ans q _ hpc hm =>
    refine hmine (t := t) rfl ?_
    rw [hpc]
    cases hm with
    | gotIOCB b pool hg =>
      obtain ⟨-, hused, -⟩ := getIOCB_used hg
      simp only [Pc.owes, State.spare, State.goto, State.handOut, Function.update_self, hused]
      omega
    | accepted b _ _ =>
      simp only [Pc.owes, State.spare, State.goto, State.accept, Function.update_self,
        List.length_append, List.length_singleton]
      omega
    | read k _ hk =>
      simp only [Pc.owes, State.spare, State.goto, State.getEvents, Function.update_self,
        List.length_drop]
      omega
    | _ =>
      simp only [Pc.owes, State.spare, State.goto, Function.update_self, State.setIocb,
        State.putBack, IocbPool.putIOCB, List.length_nil]
      omega
  | complete k res r hr _ =>
    refine ⟨fun _ => ?_, by rintro t ⟨⟩⟩
    have hlen := (List.getElem?_eq_some_iff.mp hr).1
    simp only [State.spare, State.complete, List.length_eraseIdx_of_lt hlen, List.length_append,
      List.length_singleton]
    omega
  | redeliver k ev _ => exact absurd honce id
  | setForceSyscall value => exact ⟨fun _ => le_rfl, by rintro t ⟨⟩⟩
  | closeDumbHandlers => exact ⟨fun _ => le_rfl, by rintro t ⟨⟩⟩

/-- A step leaves the pool alone, or gets an iocb from it or puts one back. -/
theorem next_pool (hn : next cfg s l = some s') :
    s'.pool = s.pool ∨ (∃ b, s.pool.getIOCB = some (b, s'.pool)) ∨
      ∃ b, s'.pool = s.pool.putIOCB b := by
  cases next_moves hn with
  | call t o m _ hpc hm => cases hm <;> exact .inl rfl
  | submit t ans q _ hpc hm =>
    cases hm with
    | gotIOCB a b pool hg => exact .inr (.inl ⟨b, hg⟩)
    | undone b errno => exact .inr (.inr ⟨b, rfl⟩)
    | _ => exact .inl rfl
  | blocked t ans q _ hpc hm =>
    cases hm with
    | event f st _ hm =>
      cases hm with
      | stopped | put _ => exact .inr (.inr ⟨_, rfl⟩)
      | _ => exact .inl rfl
    | _ => exact .inl rfl
  | poll t ans q _ hpc hm =>
    cases hm with
    | put f => exact .inr (.inr ⟨_, rfl⟩)
    | _ => exact .inl rfl
  | close t ans q _ hpc hm =>
    cases hm with
    | gotIOCB b pool hg => exact .inr (.inl ⟨b, hg⟩)
    | undone b errno => exact .inr (.inr ⟨b, rfl⟩)
    | put i result _ => exact .inr (.inr ⟨_, rfl⟩)
    | _ => exact .inl rfl
  | complete k res r hr _ => exact .inl rfl
  | redeliver k ev _ => exact .inl rfl
  | setForceSyscall value => exact .inl rfl
  | closeDumbHandlers => exact .inl rfl

/-- The events buffer changes by a read, up to the number of events that are there. -/
theorem next_buffer (hn : next cfg s l = some s') {j : ℕ} (hj : s.ring.length ≤ j) :
    s'.events j = s.events j := by
  have hread : ∀ k obs, (s.getEvents k obs).events j = s.events j := by
    intro k obs
    show ((s.ring.take k)[j]?).getD (s.events j) = s.events j
    rw [List.getElem?_eq_none ((List.length_take_le' k s.ring).trans hj), Option.getD_none]
  cases next_moves hn with
  | call t o m _ hpc hm => cases hm <;> rfl
  | submit t ans q _ hpc hm => cases hm <;> rfl
  | blocked t ans q _ hpc hm =>
    cases hm with
    | read f k _ _ => exact hread k .reaped
    | event f st _ hm => cases hm <;> rfl
    | _ => rfl
  | poll t ans q _ hpc hm =>
    cases hm with
    | read callbacks min max k _ _ => exact hread k .polled
    | _ => rfl
  | close t ans q _ hpc hm =>
    cases hm with
    | read k _ _ => exact hread k .discarded
    | _ => rfl
  | complete k res r hr _ => rfl
  | redeliver k ev _ => rfl
  | setForceSyscall value => rfl
  | closeDumbHandlers => rfl

/-! ### The invariant -/

/-- What any threads owe, with what is in flight and completed, is out of the pool; and the
pool hands out no more than it has. -/
structure Bounded (cfg : Config) (s : State Tid) : Prop where
  owed : ∀ S : Finset Tid, ∑ t ∈ S, ((s.pc t).owes : ℤ) ≤ s.spare
  size : s.pool.queueSize = cfg.queueSize
  room : s.pool.used ≤ cfg.queueSize

omit [DecidableEq Tid] in
theorem Bounded.initial (env : Process) : Bounded cfg (.initial cfg env : State Tid) where
  owed S := by
    show ∑ t ∈ S, ((0 : ℕ) : ℤ) ≤ 0
    simp
  size := rfl
  room := by
    show (0 : ℤ) ≤ cfg.queueSize
    omega

omit [DecidableEq Tid] in
/-- Only the numbers matter. -/
theorem Bounded.congr (h : Bounded cfg s) (hpc : s'.pc = s.pc) (hpool : s'.pool = s.pool)
    (hinflight : s'.inflight.length = s.inflight.length)
    (hring : s'.ring.length = s.ring.length) : Bounded cfg s' where
  owed := by
    rw [hpc, State.spare, hpool, hinflight, hring]
    exact h.owed
  size := by
    rw [hpool]
    exact h.size
  room := by
    rw [hpool]
    exact h.room

/-- Thread `t` moves, and owes no more than it takes from the others. -/
theorem Bounded.owed_moved (h : Bounded cfg s) (hstay : ∀ u, u ≠ t → s'.pc u = s.pc u)
    (hmoved : s.spare + (s'.pc t).owes ≤ s'.spare + (s.pc t).owes) (S : Finset Tid) :
    ∑ u ∈ S, ((s'.pc u).owes : ℤ) ≤ s'.spare := by
  -- count the thread that moves, too
  have hsub : ∑ u ∈ S, ((s'.pc u).owes : ℤ) ≤ ∑ u ∈ insert t S, ((s'.pc u).owes : ℤ) :=
    Finset.sum_le_sum_of_subset_of_nonneg (Finset.subset_insert t S) fun _ _ _ =>
      Int.natCast_nonneg _
  have hother : ∀ u, u ≠ t → ((s'.pc u).owes : ℤ) = (s.pc u).owes := fun u hu => by
    rw [hstay u hu]
  have hsum := sum_shares_of_mem (Finset.mem_insert_self t S) hother
  have howed := h.owed (insert t S)
  omega

theorem Bounded.step (h : Bounded cfg s) (honce : DeliversOnce l)
    (hn : next cfg s l = some s') : Bounded cfg s' where
  owed := by
    obtain ⟨hnone, hsome⟩ := next_spare hn honce
    cases htid : l.tid? with
    | none =>
      intro S
      rw [Finset.sum_congr rfl fun u _ => by rw [next_pc_of_ne hn (by simp [htid])]]
      exact (h.owed S).trans (hnone htid)
    | some t =>
      refine h.owed_moved (fun u hu => next_pc_of_ne hn ?_) (hsome t htid)
      rw [htid]
      exact fun he => hu (Option.some.inj he).symm
  size := by
    rcases next_pool hn with hp | ⟨b, hp⟩ | ⟨b, hp⟩
    · rw [hp, h.size]
    · rw [(getIOCB_used hp).2.2, h.size]
    · rw [hp]
      exact h.size
  room := by
    have hroom := h.room
    rcases next_pool hn with hp | ⟨b, hp⟩ | ⟨b, hp⟩
    · rwa [hp]
    · obtain ⟨hlt, hused, -⟩ := getIOCB_used hp
      rw [h.size] at hlt
      omega
    · rw [hp]
      show s.pool.used - 1 ≤ cfg.queueSize
      omega

omit [DecidableEq Tid] in
theorem Bounded.ring_le (h : Bounded cfg s) : s.ring.length ≤ cfg.queueSize := by
  have howed := h.owed ∅
  have hroom := h.room
  rw [Finset.sum_empty, State.spare] at howed
  omega

end ArtemisNative
