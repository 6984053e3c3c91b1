/-
ArtemisNative/Permits.lean

The semaphore and the pool.

`ioSpace` counts permits in Java and `used` counts iocbs in C, and every thread
updates the two at different moments.  What ties them together is an
inequality, not an equation: a submission that fails natively gives its iocb
back but not its permit.

    ioSpace + permits held on the way to `getIOCB` + used
      + completions put back and not released  ≤  queueSize

`held` is the permits of a thread that has not yet reached `getIOCB`, and
`unreleased` is read off the history: what the pollers have put back, less what
they have released.  A poller between the two owes the difference (`toRelease`).
-/
import ArtemisNative.Threads
import ArtemisNative.Lib.Shares
import Mathlib.Algebra.Order.BigOperators.Group.Finset

namespace ArtemisNative

open Transition

variable {Tid : Type} [DecidableEq Tid] {cfg : Config} {s s' : State Tid} {t : Tid}
variable {ans : Answer} {l : Label Tid}

/-! ### Permits and iocbs under way -/

/-- The permits thread `t` has acquired and not yet used up in `getIOCB`. -/
def State.held (cfg : Config) (s : State Tid) (t : Tid) : ℤ :=
  match s.pc t with
  | .submit (.getIOCB _) => 1
  | .close .getIOCB => if s.drained then cfg.queueSize else 0
  | _ => 0

/-- `putBack` opens a debt of the pollers, the releases settle debts. -/
def Obs.debt : Obs → ℤ
  | .putBack _ => 1
  | .released _ => -1
  | .releasedAll n => -n
  | _ => 0

/-- The completions that were put back and whose permits were not released. -/
def State.unreleased (s : State Tid) : ℤ := (s.log.map Obs.debt).sum

/-- The permits a poller is about to release. -/
def Pc.toRelease : Pc → ℤ
  | .blocked (.event _ (.done _)) | .blocked (.event _ (.inDone _))
  | .blocked (.event _ (.release _)) => 1
  | .poll (.event f _) => f.i
  | .poll (.release n _ false) => n.toNat
  | _ => 0

theorem Pc.toRelease_nonneg (p : Pc) : 0 ≤ p.toRelease := by
  unfold Pc.toRelease
  split <;> omega

omit [DecidableEq Tid] in
theorem State.held_nonneg (cfg : Config) (s : State Tid) (t : Tid) : 0 ≤ s.held cfg t := by
  unfold State.held
  split
  · omega
  · split <;> omega
  · omega

omit [DecidableEq Tid] in
theorem held_stay {u : Tid} (hpc : s'.pc u = s.pc u)
    (hd : s'.drained = s.drained ∨ (s.pc u).closes = false) :
    s'.held cfg u = s.held cfg u := by
  unfold State.held
  rw [hpc]
  rcases hd with hd | hd
  · rw [hd]
  · split
    · rfl
    · rename_i hclose
      simp [hclose, Pc.closes] at hd
    · rfl

omit [DecidableEq Tid] in
theorem getIOCB_fields {pool : IocbPool} {b : ℕ} (hg : s.pool.getIOCB = some (b, pool)) :
    pool.queueSize = s.pool.queueSize ∧ pool.used = s.pool.used + 1 := by
  unfold IocbPool.getIOCB at hg
  split at hg
  · obtain ⟨-, rfl⟩ := Prod.mk.injEq .. ▸ Option.some.inj hg
    exact ⟨rfl, rfl⟩
  · cases hg

omit [DecidableEq Tid] in
theorem debt_stopObs (s : State Tid) (f : Frame) : ((stopObs s f).map Obs.debt).sum = 0 := by
  simp [stopObs, List.map_map, Function.comp_def, Obs.debt]

/-! ### The invariant -/

variable [Fintype Tid]

structure PermitsCover (cfg : Config) (s : State Tid) : Prop where
  size : s.pool.queueSize = cfg.queueSize
  cover : s.ioSpace + ∑ u, s.held cfg u + s.pool.used + s.unreleased ≤ cfg.queueSize
  owed : ∑ u, (s.pc u).toRelease ≤ s.unreleased

/-- A step of thread `t` keeps the inequality if it does so for what `t` has a
part in. -/
theorem PermitsCover.move (h : PermitsCover cfg s)
    (hstay : ∀ u, u ≠ t → s'.pc u = s.pc u ∧ s'.held cfg u = s.held cfg u)
    (hsize : s'.pool.queueSize = s.pool.queueSize)
    (hcover : s'.ioSpace + s'.held cfg t + s'.pool.used + s'.unreleased
      ≤ s.ioSpace + s.held cfg t + s.pool.used + s.unreleased)
    (howed : s.unreleased - (s.pc t).toRelease ≤ s'.unreleased - (s'.pc t).toRelease) :
    PermitsCover cfg s' := by
  have hheld := sum_shares t fun u hu => (hstay u hu).2
  have hrel : ∑ u, (s'.pc u).toRelease
      = ∑ u, (s.pc u).toRelease - (s.pc t).toRelease + (s'.pc t).toRelease :=
    sum_shares t fun u hu => by rw [(hstay u hu).1]
  have h₁ := h.cover
  have h₂ := h.owed
  refine ⟨hsize.trans h.size, ?_, ?_⟩
  · omega
  · omega

omit [DecidableEq Tid] in
theorem PermitsCover.unreleased_nonneg (h : PermitsCover cfg s) : 0 ≤ s.unreleased :=
  le_trans (Finset.sum_nonneg fun u _ => (s.pc u).toRelease_nonneg) h.owed

omit [DecidableEq Tid] in
/-- A thread that holds a permit finds an iocb. -/
theorem PermitsCover.getIOCB_ne_none (h : PermitsCover cfg s) (ht : 0 < s.held cfg t) :
    s.pool.getIOCB ≠ none := by
  have hle : s.held cfg t ≤ ∑ u, s.held cfg u :=
    Finset.single_le_sum (fun u _ => s.held_nonneg cfg u) (Finset.mem_univ t)
  have h₁ := h.cover
  have h₂ := h.unreleased_nonneg
  have hlt : s.pool.used < s.pool.queueSize := by
    rw [h.size]
    omega
  simp [IocbPool.getIOCB, hlt]

/-! ### Every step keeps it -/

theorem PermitsCover.event {f : Frame} {st : Stage} (h : PermitsCover cfg s)
    (hpc : s.pc t = .blocked (.event f st)) (hm : EventMoves cfg s t ans f st s')
    (hstay : ∀ u, u ≠ t → s'.pc u = s.pc u ∧ s'.held cfg u = s.held cfg u)
    (hsem : cfg.useSemaphore = true) : PermitsCover cfg s' := by
  cases hm with
  | stopped =>
    refine h.move hstay rfl ?_ ?_ <;>
      simp [State.held, State.unreleased, State.goto, State.record, State.putBack,
        IocbPool.putIOCB, hpc, debt_stopObs, Pc.toRelease]
  | put | released =>
    refine h.move hstay rfl ?_ ?_ <;>
      simp [State.held, State.unreleased, State.goto, State.record, State.putBack,
        IocbPool.putIOCB, hpc, Obs.debt, Pc.toRelease]
    omega
  | notReleased _ hno => simp [hsem] at hno
  | _ =>
    refine h.move hstay rfl ?_ ?_ <;>
      simp [State.held, State.unreleased, State.goto, State.record, State.setIocb,
        State.deleteRef, hpc, Obs.debt, Pc.toRelease]

theorem PermitsCover.submit {q : SubmitPc} (h : PermitsCover cfg s)
    (hpc : s.pc t = .submit q) (hm : SubmitMoves cfg s t ans q s')
    (hstay : ∀ u, u ≠ t → s'.pc u = s.pc u ∧ s'.held cfg u = s.held cfg u)
    (hsem : cfg.useSemaphore = true) : PermitsCover cfg s' := by
  cases hm with
  | unlimited a hno => simp [hsem] at hno
  | acquired a _ _ hpos =>
    refine h.move hstay rfl ?_ ?_ <;>
      simp [State.held, State.unreleased, State.goto, hpc, Pc.toRelease]
    omega
  | noSpace a hg => exact absurd hg (h.getIOCB_ne_none (t := t) (by simp [State.held, hpc]))
  | gotIOCB a b pool hg =>
    obtain ⟨hsize, hused⟩ := getIOCB_fields hg
    refine h.move hstay hsize ?_ ?_ <;>
      simp [State.held, State.unreleased, State.goto, State.handOut, hused, hpc, Pc.toRelease]
    omega
  | _ =>
    refine h.move hstay rfl ?_ ?_ <;>
      simp [State.held, State.unreleased, State.goto, State.setIocb, State.accept,
        State.deleteRef, State.putBack, IocbPool.putIOCB, hpc, Pc.toRelease]

theorem PermitsCover.poll {q : PollPc} (h : PermitsCover cfg s)
    (hpc : s.pc t = .poll q) (hm : PollMoves cfg s t ans q s')
    (hstay : ∀ u, u ≠ t → s'.pc u = s.pc u ∧ s'.held cfg u = s.held cfg u)
    (hsem : cfg.useSemaphore = true) : PermitsCover cfg s' := by
  cases hm with
  | read callbacks min max k _ _ =>
    refine h.move hstay rfl ?_ ?_ <;>
      simp [State.held, State.goto, hpc, Pc.toRelease, State.unreleased, State.getEvents,
        List.map_map, Function.comp_def, Obs.debt]
  | batchEnd f hle =>
    have hown : (PollPc.release f.result f.callbacks f.pending |> Pc.poll).toRelease ≤ f.i := by
      cases f.pending <;> simp [Pc.toRelease, hle]
    refine h.move hstay rfl ?_ ?_ <;>
      simp [State.held, State.unreleased, State.goto, hpc]
    simp only [Pc.toRelease] at hown ⊢
    omega
  | put f =>
    refine h.move hstay rfl ?_ ?_ <;>
      simp [State.held, State.unreleased, State.goto, State.record, State.putBack,
        IocbPool.putIOCB, hpc, Obs.debt, Pc.toRelease]
    omega
  | released n callbacks _ hn =>
    refine h.move hstay rfl ?_ ?_ <;>
      simp [State.held, State.unreleased, State.goto, State.record, hpc, Obs.debt,
        Pc.toRelease]
    omega
  | notReleased n callbacks hn =>
    have hle : n ≤ 0 := by
      by_contra hpos
      exact hn ⟨hsem, by omega⟩
    refine h.move hstay rfl ?_ ?_ <;>
      simp [State.held, State.unreleased, State.goto, hpc, Pc.toRelease, hle]
  | readFailed callbacks min max hev =>
    refine h.move hstay rfl ?_ ?_ <;>
      simp [State.held, State.unreleased, State.goto, hpc, Pc.toRelease]
    omega
  | _ =>
    refine h.move hstay rfl ?_ ?_ <;>
      simp [State.held, State.unreleased, State.goto, State.record, State.deleteRef, hpc,
        Obs.debt, Pc.toRelease, PollFrame.store]

/-- `deleteContext` takes no iocb without permits for it. -/
def BeforeSentinel (s : State Tid) : Label Tid → Prop
  | .step t _ => s.pc t = .close .getIOCB → s.drained = true
  | _ => True

omit [Fintype Tid] in
instance (s : State Tid) : DecidablePred (BeforeSentinel s)
  | .step t _ => inferInstanceAs (Decidable (s.pc t = .close .getIOCB → s.drained = true))
  | .call _ _ | .complete _ _ | .redeliver _ | .setForceSyscall _ | .closeDumbHandlers =>
    isTrue trivial

theorem PermitsCover.close {q : ClosePc} (h : PermitsCover cfg s)
    (hpc : s.pc t = .close q) (hm : CloseMoves cfg s t ans q s')
    (hstay : ∀ u, u ≠ t → s'.pc u = s.pc u ∧ s'.held cfg u = s.held cfg u)
    (hsem : cfg.useSemaphore = true) (hq : 0 < cfg.queueSize) (hfresh : q.ahead s)
    (hdrained : q = .getIOCB → s.drained = true) : PermitsCover cfg s' := by
  cases hm with
  | unlimited hno => simp [hsem] at hno
  | timedOut _ _ =>
    refine h.move hstay rfl ?_ ?_ <;>
      simp [State.held, State.unreleased, State.goto, hpc, hfresh.1, Pc.toRelease]
  | drained _ _ hall =>
    refine h.move hstay rfl ?_ ?_ <;>
      simp [State.held, State.unreleased, State.goto, hpc, Pc.toRelease]
    omega
  | gotIOCB b pool hg =>
    obtain ⟨hsize, hused⟩ := getIOCB_fields hg
    refine h.move hstay hsize ?_ ?_ <;>
      simp [State.held, State.unreleased, State.goto, State.handOut, hused, hpc,
        hdrained rfl, Pc.toRelease]
    omega
  | noSpace hg =>
    exact absurd hg (h.getIOCB_ne_none (t := t) (by simp [State.held, hpc, hdrained rfl, hq]))
  | read k _ _ =>
    refine h.move hstay rfl ?_ ?_ <;>
      simp [State.held, State.goto, hpc, Pc.toRelease, State.unreleased, State.getEvents,
        List.map_map, Function.comp_def, Obs.debt]
  | _ =>
    refine h.move hstay rfl ?_ ?_ <;>
      simp [State.held, State.unreleased, State.goto, State.setIocb, State.accept,
        State.putBack, IocbPool.putIOCB, hpc, Pc.toRelease]

theorem PermitsCover.call {o : Outcome} {m : Method} (h : PermitsCover cfg s)
    (hpc : s.pc t = .idle o) (hm : CallMoves s t m s')
    (hstay : ∀ u, u ≠ t → s'.pc u = s.pc u ∧ s'.held cfg u = s.held cfg u) :
    PermitsCover cfg s' := by
  cases hm <;> refine h.move hstay rfl ?_ ?_ <;>
    simp [State.held, State.unreleased, State.goto, hpc, Pc.toRelease]

/-- **Every step keeps the inequality**, as long as `deleteContext` has taken no
iocb without the permits for it. -/
theorem PermitsCover.step (h : PermitsCover cfg s) (hsole : SoleCloser s)
    (hsem : cfg.useSemaphore = true) (hq : 0 < cfg.queueSize) (hb : BeforeSentinel s l)
    (hn : next cfg s l = some s') : PermitsCover cfg s' := by
  have hpcs : ∀ t, l.tid? = some t → ∀ u, u ≠ t → s'.pc u = s.pc u := fun t ht u hu =>
    next_pc_of_ne hn fun he => hu (Option.some.inj (he.symm.trans ht))
  -- only the closing thread sets `drained`, and it is the only one inside `close`
  have hstay : ∀ t, l.tid? = some t → ∀ u, u ≠ t →
      s'.pc u = s.pc u ∧ s'.held cfg u = s.held cfg u := by
    intro t ht u hu
    refine ⟨hpcs t ht u hu, held_stay (hpcs t ht u hu) ?_⟩
    rcases next_close_cases hn with ⟨v, ans, q, rfl, hpc, -⟩ | ⟨v, -, rfl⟩ | ⟨hc, -⟩
    · obtain rfl : v = t := Option.some.inj ht
      refine .inr (Bool.eq_false_iff.mpr fun hcl => hu (hsole.unique u v hcl ?_))
      rw [hpc]
      rfl
    · exact .inl rfl
    · exact .inl (congrArg (·.2.1) hc)
  cases next_moves hn with
  | call t o m _ hpc hm => exact h.call hpc hm (hstay t rfl)
  | submit t ans q _ hpc hm => exact h.submit hpc hm (hstay t rfl) hsem
  | blocked t ans q _ hpc hm =>
    cases hm with
    | readInterrupted f _ => exact h
    | event f st _ hm => exact h.event hpc hm (hstay t rfl) hsem
    | _ =>
      refine h.move (hstay t rfl) rfl ?_ ?_ <;>
        simp [State.held, State.goto, State.unreleased, State.getEvents, hpc, Pc.toRelease,
          List.map_map, Function.comp_def, Obs.debt]
  | poll t ans q _ hpc hm => exact h.poll hpc hm (hstay t rfl) hsem
  | close t ans q _ hpc hm =>
    exact h.close hpc hm (hstay t rfl) hsem hq (hsole.ahead t q hpc) fun hq' =>
      hb (hq' ▸ hpc)
  | complete k res r _ _ =>
    have hun : (s.complete k ⟨r.obj, res, r.op⟩).unreleased = s.unreleased := by
      simp [State.complete, State.unreleased, Obs.debt]
    exact ⟨h.size, by rw [hun]; exact h.cover, by rw [hun]; exact h.owed⟩
  | redeliver k ev _ => exact ⟨h.size, h.cover, h.owed⟩
  | setForceSyscall value => exact ⟨h.size, h.cover, h.owed⟩
  | closeDumbHandlers => exact ⟨h.size, h.cover, h.owed⟩

omit [DecidableEq Tid] in
theorem PermitsCover.initial (env : Process) :
    PermitsCover cfg (.initial cfg env : State Tid) where
  size := rfl
  cover := by
    simp only [State.initial, State.held, State.unreleased, IocbPool.new]
    split <;> simp
  owed := by simp [State.initial, State.unreleased, Pc.toRelease]

/-- **The semaphore keeps the pool from running out.**  Before `deleteContext`
takes an iocb, or if the `tryAcquire` of `close` has succeeded, the permits and
the iocbs stay within the queue; so no submission finds the pool used up, and
neither does a `deleteContext` that has drained the context. -/
theorem semaphore_covers_pool {env : Process} (hsem : cfg.useSemaphore = true)
    (hq : 0 < cfg.queueSize)
    (hr : Reaches (next cfg) BeforeSentinel (.initial cfg env) s) :
    (s.ioSpace + ∑ t, s.held cfg t + s.pool.used + s.unreleased ≤ cfg.queueSize ∧
      0 ≤ s.unreleased) ∧
    (∀ t a, s.pc t = .submit (.getIOCB a) → s.pool.getIOCB ≠ none) ∧
    (∀ t, s.pc t = .close .getIOCB → s.drained = true → s.pool.getIOCB ≠ none) := by
  obtain ⟨h, -⟩ := hr.invariant (I := fun s => PermitsCover cfg s ∧ SoleCloser s)
    ⟨.initial env, .initial env⟩ fun s l s' h hb hn =>
      ⟨h.1.step h.2 hsem hq hb hn, h.2.step hn⟩
  refine ⟨⟨h.cover, h.unreleased_nonneg⟩, fun t a hpc => ?_, fun t hpc hd => ?_⟩
  · exact h.getIOCB_ne_none (t := t) (by simp [State.held, hpc])
  · exact h.getIOCB_ne_none (t := t) (by simp [State.held, hpc, hd, hq])

/-- A write is in flight, and a second submission has its permit. -/
theorem semaphore_covers_second_write : ∃ s : State Bool,
    Reaches (next ⟨2, true, true⟩) BeforeSentinel (.sample ⟨2, true, true⟩) s ∧
      s.ioSpace = 0 ∧ s.pool.getIOCB ≠ none := by
  obtain ⟨s, hr, hspace, hpc⟩ := exists_of_exec (next ⟨2, true, true⟩) BeforeSentinel
    (.sample ⟨2, true, true⟩)
    (submits false ⟨.pwrite, 5, 0, 512, some 1⟩ ++
      (submits true ⟨.pwrite, 5, 512, 512, some 2⟩).take 2)
    (fun s : State Bool => s.ioSpace = 0 ∧
      s.pc true = .submit (.getIOCB ⟨.pwrite, 5, 512, 512, some 2⟩)) (by decide)
  exact ⟨s, hr, hspace, (semaphore_covers_pool rfl (by decide) hr).2.1 true _ hpc⟩

end ArtemisNative
