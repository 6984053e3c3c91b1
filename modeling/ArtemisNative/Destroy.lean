/-
ArtemisNative/Destroy.lean

What `iocb_destroy` frees.

`newContext` says that everything it allocates is freed at `deleteContext`.
`iocb_destroy` frees what the slots of the pool point to, and a slot behind
`iocbGet` may be stale: it still points to an iocb that has left the pool, and
whose place may since have been taken elsewhere.  With nothing outstanding no
slot is stale.  With `k` iocbs outstanding the stale slots point to the last `k`
iocbs handed out, so the array is what was allocated if and only if these are
the ones outstanding (`iocb_destroy_iff`).

A `close` that goes on with an operation outstanding usually misses that: the
iocb of the sentinel is the last one handed out, and it is put back.
-/
import ArtemisNative.Ownership

namespace ArtemisNative

open Transition IocbPool

variable {Tid : Type} [DecidableEq Tid] {cfg : Config} {s s' : State Tid} {t : Tid}
variable {ans : Answer} {l : Label Tid}
variable {env : Process}

theorem Owned.of_reaches (hq : 0 < cfg.queueSize)
    (hr : Reaches (next cfg) Orderly (.initial cfg env) s) :
    Owned cfg s ∧ SoleCloser s := by
  refine hr.invariant (I := fun s => Owned cfg s ∧ SoleCloser s)
    ⟨.initial hq env, .initial env⟩ ?_
  rintro s l s' ⟨h, hsole⟩ hP hn
  exact ⟨h.step hP.1 hP.2 hn, hsole.step hn⟩

/-- **`iocb_destroy` frees every iocb once if and only if the iocbs still
outstanding are the last ones that `getIOCB` handed out.** -/
theorem iocb_destroy_iff (hq : 0 < cfg.queueSize)
    (hr : Reaches (next cfg) Orderly (.initial cfg env) s)
    (hpc : s.pc t = .close .destroy) (hn : next cfg s (.step t ans) = some s') :
    s'.destroyed.Perm (List.range cfg.queueSize) ↔
      ∀ b ∈ s.outstanding, b ∈ lastHanded s.handed s.outstanding.card := by
  obtain ⟨hown, hsole⟩ := Owned.of_reaches hq hr
  have hd : s'.destroyed = s.pool.iocbDestroy := by
    cases next_moves hn with
    | close _ _ q _ hq' hm =>
      obtain rfl : ClosePc.destroy = q := by simpa [hpc] using hq'
      cases hm
      simp [State.goto, (hsole.ahead t _ hpc).1]
    | submit _ _ q _ hq' _ | blocked _ _ q _ hq' _ | poll _ _ q _ hq' _ => simp [hpc] at hq'
  rw [hd]
  exact hown.accounts.iocbDestroy_perm_iff

/-! ### Two closes -/

/-- `close` beside a blocked poller, up to the call of `iocb_destroy`; the
sentinel is the `k`-th request in flight. -/
def closing (ans : Answer) (k : ℕ) : List (Label Bool) :=
  [.call true .poll, .step true {}, .call false .close, .step false ans] ++ steps false 3 ++
    [.complete k 0, .step true { events := 1 }] ++ steps true 3 ++ steps false 5

theorem iocb_destroy_iff_drained :
    ∃ s s' : State Bool,
      Reaches (next ⟨2, true, true⟩) Orderly (.sample ⟨2, true, true⟩) s ∧
      next ⟨2, true, true⟩ s (.step false {}) = some s' ∧ s'.destroyed.Perm (List.range 2) := by
  obtain ⟨s, hr, hpc, hout, s', hn, -⟩ := exists_of_exec (next ⟨2, true, true⟩) Orderly
    (.sample ⟨2, true, true⟩) (closing {} 0)
    (fun s => s.pc false = .close .destroy ∧ s.outstanding = ∅ ∧
      ∃ s' ∈ next ⟨2, true, true⟩ s (.step false {}), True) (by decide)
  refine ⟨s, s', hr, hn, (iocb_destroy_iff (by decide) hr hpc hn).mpr ?_⟩
  simp [hout]

/-- One write stays outstanding, and `close` goes on when its time is up. -/
def closingBesideWrite : List (Label Bool) :=
  submits false ⟨.pwrite, 5, 0, 512, some 1⟩ ++ closing { timedOut := true } 1

/-- The iocb of the sentinel is freed twice, the one of the write not at all. -/
theorem iocb_destroy_double_free :
    ∃ s s' : State Bool,
      Reaches (next ⟨2, true, true⟩) Orderly (.sample ⟨2, true, true⟩) s ∧
      s.pc false = .close .destroy ∧ next ⟨2, true, true⟩ s (.step false {}) = some s' ∧
      s'.destroyed = [1, 1] ∧ ¬ s'.destroyed.Perm (List.range 2) := by
  obtain ⟨s, hr, hpc, s', hn, hd⟩ := exists_of_exec (next ⟨2, true, true⟩) Orderly
    (.sample ⟨2, true, true⟩) closingBesideWrite
    (fun s => s.pc false = .close .destroy ∧
      ∃ s' ∈ next ⟨2, true, true⟩ s (.step false {}), s'.destroyed = [1, 1]) (by decide)
  exact ⟨s, s', hr, hpc, hn, hd, by rw [hd]; decide⟩

end ArtemisNative
