/-
ArtemisNative/Ownership.lean

Who owns an iocb.

An iocb that is out of the pool is owned by somebody: by a thread that has it
in a local variable or in the unprocessed part of its batch (`Pc.holds`), or by
the kernel, in flight or in the completion ring.  `Owned` says that the pool
accounts for its iocbs and that nobody owns an iocb twice.

Every step is one of a few moves of iocbs, and has one lemma each:

* `Owned.move`    — the thread moves on and keeps what it holds;
* `Owned.handOut` — `getIOCB`;
* `Owned.putBack` — `putIOCB`;
* `Owned.accept`  — `io_submit` hands the iocb to the kernel;
* `Owned.read`    — `ringio_get_events` moves iocbs into the batch of a thread;
* `Owned.complete`, `Owned.forget` — the kernel completes a request, or the
  queue is released.

The buffer `control->events` is shared by all threads of a context.  A read
keeps ownership only if no other thread has an unprocessed batch in it
(`ReadsAlone`); this is where a single poller is needed.
-/
import ArtemisNative.Threads
import ArtemisNative.Lib.Custody

namespace ArtemisNative

open Transition

variable {Tid : Type} [DecidableEq Tid] {cfg : Config} {s s' : State Tid} {t : Tid} {p : Pc}
variable {b : ℕ} {ans : Answer} {l : Label Tid}

/-! ### What a thread holds -/

/-- The events of a batch from index `i` on. -/
def eventsFrom (events : ℕ → IoEvent) (i result : ℕ) : List IoEvent :=
  (List.range' i (result - i)).map events

theorem eventsFrom_of_lt {events : ℕ → IoEvent} {i result : ℕ} (h : i < result) :
    eventsFrom events i result = events i :: eventsFrom events (i + 1) result := by
  obtain ⟨k, hk⟩ : ∃ k, result - i = k + 1 := ⟨result - i - 1, by omega⟩
  have hk' : result - (i + 1) = k := by omega
  simp [eventsFrom, hk, hk', List.range'_succ]

theorem eventsFrom_of_le {events : ℕ → IoEvent} {i result : ℕ} (h : result ≤ i) :
    eventsFrom events i result = [] := by
  simp [eventsFrom, Nat.sub_eq_zero_of_le h]

def objsFrom (events : ℕ → IoEvent) (i result : ℕ) : List ℕ :=
  (eventsFrom events i result).map (·.obj)

theorem objsFrom_of_lt {events : ℕ → IoEvent} {i result : ℕ} (h : i < result) :
    objsFrom events i result = (events i).obj :: objsFrom events (i + 1) result := by
  simp [objsFrom, eventsFrom_of_lt h]

theorem objsFrom_of_le {events : ℕ → IoEvent} {i result : ℕ} (h : result ≤ i) :
    objsFrom events i result = [] := by
  simp [objsFrom, eventsFrom_of_le h]

/-- Inside the loop of `blockedPoll`: up to `put` the iocb of the event at hand
is still the poller's. -/
def Stage.holds (events : ℕ → IoEvent) (f : Frame) : Stage → List ℕ
  | .test => objsFrom events f.i f.result
  | .stop => [(events f.i).obj]
  | .sync | .onError | .take | .put _ => (events f.i).obj :: objsFrom events (f.i + 1) f.result
  | .done _ | .inDone _ | .release _ | .deleteRef _ | .warn =>
    objsFrom events (f.i + 1) f.result

/-- The iocbs a thread owns. -/
def Pc.holds (events : ℕ → IoEvent) : Pc → List ℕ
  | .submit (.prep _ b) | .submit (.ioSubmit _ b) | .submit (.deleteRef b _)
  | .submit (.putIOCB b _) => [b]
  | .blocked (.event f st) => st.holds events f
  | .poll (.event f .onError) => objsFrom events f.i f.result
  | .poll (.event f _) => (events f.i).obj :: objsFrom events (f.i + 1) f.result
  | .close (.prep b) | .close (.ioSubmit b) | .close (.putIOCB b _) => [b]
  | .close (.put i result) => objsFrom events i result
  | _ => []

theorem Pc.holds_of_not_inBatch (events events' : ℕ → IoEvent) (h : p.inBatch = false) :
    p.holds events = p.holds events' := by
  cases p with
  | idle o => rfl
  | submit p => cases p <;> rfl
  | blocked p =>
    cases p with
    | event f st => simp [inBatch] at h
    | _ => rfl
  | poll p =>
    cases p with
    | event f st => simp [inBatch] at h
    | _ => rfl
  | close p =>
    cases p with
    | put i result => simp [inBatch] at h
    | _ => rfl

/-- The iocbs of the kernel, and of each thread. -/
def State.holders (s : State Tid) : Option Tid → List ℕ
  | none => s.inflight.map (·.obj) ++ s.ring.map (·.obj)
  | some t => (s.pc t).holds s.events

/-! ### The invariant -/

structure Owned (cfg : Config) (s : State Tid) : Prop where
  accounts : IocbPool.Accounts cfg.queueSize s.pool s.outstanding s.handed
  custody : Custody s.outstanding s.holders

/-- The part of the state that `Owned` reads, besides the program counters. -/
def State.pools (s : State Tid) :=
  (s.pool, s.outstanding, s.handed, s.inflight, s.ring, s.events)

theorem holders_of_pools (hs : s'.pools = s.pools) (hpc : s'.pc = Function.update s.pc t p) :
    s'.holders = Function.update s.holders (some t) (p.holds s.events) := by
  simp only [State.pools, Prod.mk.injEq] at hs
  obtain ⟨-, -, -, hi, hr, he⟩ := hs
  funext q
  cases q with
  | none => simp [State.holders, hi, hr]
  | some u =>
    by_cases hu : u = t
    · subst hu
      simp [State.holders, hpc, he]
    · simp [State.holders, hpc, he, hu]

/-- The thread moves on and keeps what it holds. -/
theorem Owned.move (h : Owned cfg s) (hs : s'.pools = s.pools)
    (hpc : s'.pc = Function.update s.pc t p)
    (hp : p.holds s.events = (s.pc t).holds s.events) : Owned cfg s' := by
  have hH : s'.holders = s.holders := by
    rw [holders_of_pools hs hpc, hp]
    exact Function.update_eq_self _ _
  simp only [State.pools, Prod.mk.injEq] at hs
  obtain ⟨h₁, h₂, h₃, -, -, -⟩ := hs
  exact ⟨h₁ ▸ h₂ ▸ h₃ ▸ h.accounts, by rw [hH, h₂]; exact h.custody⟩

/-- The thread moves on and forgets some of what it holds. -/
theorem Owned.drop (h : Owned cfg s) (hs : s'.pools = s.pools)
    (hpc : s'.pc = Function.update s.pc t p)
    (hp : (p.holds s.events).Sublist ((s.pc t).holds s.events)) : Owned cfg s' := by
  have hcus := h.custody.shrink (p := some t) hp
  have hH := holders_of_pools hs hpc
  simp only [State.pools, Prod.mk.injEq] at hs
  obtain ⟨h₁, h₂, h₃, -, -, -⟩ := hs
  exact ⟨h₁ ▸ h₂ ▸ h₃ ▸ h.accounts, by rw [hH, h₂]; exact hcus⟩

omit [DecidableEq Tid] in
/-- Only fields that `Owned` does not read change. -/
theorem Owned.frame (h : Owned cfg s) (hs : s'.pools = s.pools) (hpc : s'.pc = s.pc) :
    Owned cfg s' := by
  simp only [State.pools, Prod.mk.injEq] at hs
  obtain ⟨h₁, h₂, h₃, hi, hr, he⟩ := hs
  have hH : s'.holders = s.holders := by
    funext q
    cases q <;> simp [State.holders, hi, hr, he, hpc]
  exact ⟨h₁ ▸ h₂ ▸ h₃ ▸ h.accounts, by rw [hH, h₂]; exact h.custody⟩

theorem Owned.handOut {pool : IocbPool} (h : Owned cfg s)
    (hg : s.pool.getIOCB = some (b, pool)) (hs : s'.pools = (s.handOut b pool).pools)
    (hpc : s'.pc = Function.update s.pc t p)
    (hp : p.holds s.events = b :: (s.pc t).holds s.events) : Owned cfg s' := by
  obtain ⟨-, hb, hacc⟩ := h.accounts.getIOCB hg
  have hcus := h.custody.gain (p := some t) (l := p.holds s.events) hb (.of_eq hp)
  have hH : s'.holders = Function.update s.holders (some t) (p.holds s.events) :=
    holders_of_pools (s := s.handOut b pool) hs hpc
  simp only [State.pools, State.handOut, Prod.mk.injEq] at hs
  obtain ⟨h₁, h₂, h₃, -, -, -⟩ := hs
  exact ⟨h₁ ▸ h₂ ▸ h₃ ▸ hacc, by rw [hH, h₂]; exact hcus⟩

theorem Owned.putBack (h : Owned cfg s) (hs : s'.pools = (s.putBack b).pools)
    (hpc : s'.pc = Function.update s.pc t p)
    (hp : (s.pc t).holds s.events = b :: p.holds s.events) : Owned cfg s' := by
  have hb : b ∈ s.holders (some t) := by
    simp [State.holders, hp]
  have hacc := h.accounts.putIOCB (h.custody.subset _ _ hb)
  have hcus := h.custody.lose (p := some t) (a := b) (l := p.holds s.events) (.of_eq hp)
  have hH : s'.holders = Function.update s.holders (some t) (p.holds s.events) :=
    holders_of_pools (s := s.putBack b) hs hpc
  simp only [State.pools, State.putBack, Prod.mk.injEq] at hs
  obtain ⟨h₁, h₂, h₃, -, -, -⟩ := hs
  exact ⟨h₁ ▸ h₂ ▸ h₃ ▸ hacc, by rw [hH, h₂]; exact hcus⟩

theorem Owned.accept (origin : Origin) (h : Owned cfg s)
    (hs : s'.pools = (s.accept b origin).pools) (hpc : s'.pc = Function.update s.pc t p)
    (hp : (s.pc t).holds s.events = b :: p.holds s.events) : Owned cfg s' := by
  have hH : s'.holders = Function.update (Function.update s.holders (some t) (p.holds s.events))
      none (s.inflight.map (·.obj) ++ [b] ++ s.ring.map (·.obj)) := by
    rw [holders_of_pools hs hpc]
    funext q
    cases q with
    | none => simp [State.holders, State.accept]
    | some u =>
      by_cases hu : u = t
      · subst hu
        simp [State.accept]
      · simp [hu, State.holders, State.accept]
  have hcus := h.custody.transfer (p := some t) (q := none) (l := p.holds s.events)
    (m := s.inflight.map (·.obj) ++ [b] ++ s.ring.map (·.obj)) (by simp) (by
      simp only [State.holders, hp, List.cons_append, List.append_assoc]
      refine List.Perm.trans ?_ List.perm_middle
      exact (List.perm_middle.append_left _))
  simp only [State.pools, State.accept, Prod.mk.injEq] at hs
  obtain ⟨h₁, h₂, h₃, -, -, -⟩ := hs
  exact ⟨h₁ ▸ h₂ ▸ h₃ ▸ h.accounts, by rw [hH, h₂]; exact hcus⟩

omit [DecidableEq Tid] in
/-- The events a read has put into the buffer. -/
theorem eventsFrom_getEvents {k : ℕ} (obs : ℕ → Obs) (hk : k ≤ s.ring.length) :
    eventsFrom (s.getEvents k obs).events 0 k = s.ring.take k := by
  apply List.ext_getElem?
  intro j
  by_cases hj : j < k
  · have hj' : j < s.ring.length := by omega
    simp [eventsFrom, State.getEvents, hj, hj']
  · rw [List.getElem?_eq_none (by simp [eventsFrom]; omega),
      List.getElem?_eq_none (by simp; omega)]

theorem Owned.read {k : ℕ} (obs : ℕ → Obs) (h : Owned cfg s) (hk : k ≤ s.ring.length)
    (hs : s'.pools = (s.getEvents k obs).pools) (hpc : s'.pc = Function.update s.pc t p)
    (hout : ∀ u, u ≠ t → (s.pc u).inBatch = false) (ht : (s.pc t).holds s.events = [])
    (hp : ∀ ev, p.holds ev = objsFrom ev 0 k) : Owned cfg s' := by
  have hpt : p.holds (s.getEvents k obs).events = (s.ring.take k).map (·.obj) := by
    rw [hp, objsFrom, eventsFrom_getEvents obs hk]
  have hH : s'.holders = Function.update (Function.update s.holders none
      (s.inflight.map (·.obj) ++ (s.ring.drop k).map (·.obj)))
      (some t) ((s.ring.take k).map (·.obj)) := by
    rw [holders_of_pools hs hpc, hpt]
    funext q
    cases q with
    | none => simp [State.holders, State.getEvents]
    | some u =>
      by_cases hu : u = t
      · subst hu
        simp
      · simp only [ne_eq, Option.some.injEq, hu, not_false_eq_true, Function.update_of_ne,
          State.holders, reduceCtorEq]
        exact Pc.holds_of_not_inBatch _ _ (hout u hu)
  have hcus := h.custody.transfer (p := none) (q := some t)
    (l := s.inflight.map (·.obj) ++ (s.ring.drop k).map (·.obj))
    (m := (s.ring.take k).map (·.obj)) (by simp) (by
      simp only [State.holders, ht, List.append_nil, List.append_assoc]
      refine List.Perm.append_left _ (List.perm_append_comm.trans (.of_eq ?_))
      rw [← List.map_append, List.take_append_drop])
  simp only [State.pools, State.getEvents, Prod.mk.injEq] at hs
  obtain ⟨h₁, h₂, h₃, -, -, -⟩ := hs
  exact ⟨h₁ ▸ h₂ ▸ h₃ ▸ h.accounts, by rw [hH, h₂]; exact hcus⟩

/-- The kernel reorders or forgets what it owns. -/
theorem Owned.kernel (h : Owned cfg s) (hpool : s'.pool = s.pool)
    (hout : s'.outstanding = s.outstanding) (hhand : s'.handed = s.handed)
    (hH : s'.holders = Function.update s.holders none (s'.holders none))
    (hk : ∃ l, l.Sublist (s.holders none) ∧ (s'.holders none).Perm l) : Owned cfg s' := by
  obtain ⟨l, hsub, hperm⟩ := hk
  have h₁ := h.custody.shrink hsub
  have h₂ := h₁.rearrange (p := none) (l := s'.holders none) (by simpa using hperm)
  rw [Function.update_idem] at h₂
  exact ⟨hpool ▸ hout ▸ hhand ▸ h.accounts, by rw [hH, hout]; exact h₂⟩

theorem Owned.complete {k : ℕ} {res : ℤ} {r : Request} (h : Owned cfg s)
    (hr : s.inflight[k]? = some r) : Owned cfg (s.complete k ⟨r.obj, res, r.op⟩) := by
  refine h.kernel rfl rfl rfl ?_ ⟨s.holders none, .refl _, ?_⟩
  · funext q
    cases q <;> simp [State.holders, State.complete]
  · obtain ⟨hk, rfl⟩ := List.getElem?_eq_some_iff.mp hr
    have hperm : (s.inflight[k] :: s.inflight.eraseIdx k).Perm s.inflight :=
      List.getElem_cons_eraseIdx_perm hk
    have hmap := hperm.map (·.obj)
    simp only [State.holders, State.complete, List.map_append, List.map_cons, List.map_nil,
      ← List.append_assoc] at hmap ⊢
    refine List.perm_append_comm.trans ?_
    exact hmap.append_right (s.ring.map (·.obj))

/-- `io_queue_release`: the kernel forgets the requests. -/
theorem Owned.forget (h : Owned cfg s) (hpool : s'.pool = s.pool)
    (hout : s'.outstanding = s.outstanding) (hhand : s'.handed = s.handed)
    (hi : s'.inflight = []) (hr : s'.ring = []) (hev : s'.events = s.events)
    (hpc : s'.pc = Function.update s.pc t p)
    (hp : p.holds s.events = (s.pc t).holds s.events) : Owned cfg s' := by
  refine h.kernel hpool hout hhand ?_ ⟨[], List.nil_sublist _, ?_⟩
  · funext q
    cases q with
    | none => simp
    | some u =>
      by_cases hu : u = t
      · subst hu
        simp [State.holders, hpc, hev, hp]
      · simp [State.holders, hpc, hev, hu]
  · simp [State.holders, hi, hr]

/-! ### Every step keeps it -/

theorem Owned.submit {q : SubmitPc} (h : Owned cfg s) (hpc : s.pc t = .submit q)
    (hm : SubmitMoves cfg s t ans q s') : Owned cfg s' := by
  cases hm with
  | gotIOCB a b pool hg => exact h.handOut hg rfl rfl (by rw [hpc]; rfl)
  | accepted a b _ _ => exact h.accept (.user a) rfl rfl (by rw [hpc]; rfl)
  | undone b errno => exact h.putBack rfl rfl (by rw [hpc]; rfl)
  | _ => exact h.move rfl rfl (by rw [hpc]; rfl)

theorem Owned.event {f : Frame} {st : Stage} (h : Owned cfg s)
    (hpc : s.pc t = .blocked (.event f st)) (hm : EventMoves cfg s t ans f st s') :
    Owned cfg s' := by
  cases hm with
  | isStop hlt _ =>
    -- the rest of the batch is given up
    refine h.drop rfl rfl ?_
    rw [hpc]
    simp only [Pc.holds, Stage.holds, objsFrom_of_lt hlt]
    exact (List.nil_sublist _).cons_cons _
  | isEvent hlt _ => exact h.move rfl rfl (by rw [hpc]; exact (objsFrom_of_lt hlt).symm)
  | batchEnd hle => exact h.move rfl rfl (by rw [hpc]; exact (objsFrom_of_le hle).symm)
  | stopped | put => exact h.putBack rfl rfl (by rw [hpc]; rfl)
  | takenNull _ =>
    -- the iocb of a record that is taken for invalid is not put back
    exact h.drop rfl rfl (by rw [hpc]; exact List.sublist_cons_self _ _)
  | _ => exact h.move rfl rfl (by rw [hpc]; rfl)

theorem Owned.blocked {q : BlockedPc} (h : Owned cfg s) (hpc : s.pc t = .blocked q)
    (hal : ReadsAlone s (.step t ans)) (hm : BlockedMoves cfg s t ans q s') : Owned cfg s' := by
  cases hm with
  | readInterrupted f _ => exact h
  | read f k _ hk =>
    exact h.read .reaped hk rfl rfl (hal (by rw [hpc]; rfl)) (by rw [hpc]; rfl) fun _ => rfl
  | event f st s' hm => exact h.event hpc hm
  | _ => exact h.move rfl rfl (by rw [hpc]; rfl)

theorem Owned.poll {q : PollPc} (h : Owned cfg s) (hpc : s.pc t = .poll q)
    (hal : ReadsAlone s (.step t ans)) (hm : PollMoves cfg s t ans q s') : Owned cfg s' := by
  cases hm with
  | read callbacks min max k _ hk =>
    exact h.read .polled hk rfl rfl (hal (by rw [hpc]; rfl)) (by rw [hpc]; rfl) fun _ => rfl
  | batchEnd f hle => exact h.move rfl rfl (by rw [hpc]; exact (objsFrom_of_le hle).symm)
  | noError f hlt _ | errorSkipped f hlt _ _ | errorCalled f hlt _ _ _ =>
    exact h.move rfl rfl (by rw [hpc]; exact (objsFrom_of_lt hlt).symm)
  | put f => exact h.putBack rfl rfl (by rw [hpc]; rfl)
  | _ => exact h.move rfl rfl (by rw [hpc]; rfl)

theorem Owned.close {q : ClosePc} (h : Owned cfg s) (hpc : s.pc t = .close q)
    (hal : ReadsAlone s (.step t ans)) (hm : CloseMoves cfg s t ans q s') : Owned cfg s' := by
  cases hm with
  | gotIOCB b pool hg => exact h.handOut hg rfl rfl (by rw [hpc]; rfl)
  | accepted b _ _ => exact h.accept (.stop (s.iocb b).aio_fildes) rfl rfl (by rw [hpc]; rfl)
  | undone b errno => exact h.putBack rfl rfl (by rw [hpc]; rfl)
  | read k _ hk =>
    exact h.read .discarded hk rfl rfl (hal (by rw [hpc]; rfl)) (by rw [hpc]; rfl) fun _ => rfl
  | put i result hlt => exact h.putBack rfl rfl (by rw [hpc]; exact objsFrom_of_lt hlt)
  | batchEnd i result hle => exact h.move rfl rfl (by rw [hpc]; exact (objsFrom_of_le hle).symm)
  | queueReleased => exact h.forget rfl rfl rfl rfl rfl rfl rfl (by rw [hpc]; rfl)
  | _ => exact h.move rfl rfl (by rw [hpc]; rfl)

theorem Owned.call {o : Outcome} {m : Method} (h : Owned cfg s) (hpc : s.pc t = .idle o)
    (hm : CallMoves s t m s') : Owned cfg s' := by
  cases hm <;> exact h.move rfl rfl (by rw [hpc]; rfl)

/-- **Ownership is kept by every step** that does not read into a buffer in
use, against a kernel that delivers each event once. -/
theorem Owned.step (h : Owned cfg s) (honce : DeliversOnce l) (hal : ReadsAlone s l)
    (hn : next cfg s l = some s') : Owned cfg s' := by
  cases next_moves hn with
  | call t o m _ hpc hm => exact h.call hpc hm
  | submit t ans q _ hpc hm => exact h.submit hpc hm
  | blocked t ans q _ hpc hm => exact h.blocked hpc hal hm
  | poll t ans q _ hpc hm => exact h.poll hpc hal hm
  | close t ans q _ hpc hm => exact h.close hpc hal hm
  | complete k res r hr _ => exact h.complete hr
  | redeliver k ev _ => exact honce.elim
  | setForceSyscall value => exact h.frame rfl rfl
  | closeDumbHandlers => exact h.frame rfl rfl

/-- Memory that a thread owns is not written by another one. -/
theorem Owned.iocb_kept (h : Owned cfg s) (hn : next cfg s l = some s')
    (hl : l.tid? ≠ some t) (hb : b ∈ (s.pc t).holds s.events) : s'.iocb b = s.iocb b := by
  -- the iocb that a step of thread `u` writes is owned by `u`
  have hne : ∀ u d, u ≠ t → d ∈ (s.pc u).holds s.events → b ≠ d := by
    rintro u d hu hd rfl
    exact hu (Option.some.inj (h.custody.place_unique (p := some u) (q := some t) hd hb))
  have hl' : ∀ u, l.tid? = some u → u ≠ t := by
    rintro u hu rfl
    exact hl hu
  cases next_moves hn with
  | call u o m _ hpc hm => cases hm <;> rfl
  | submit u ans q _ hpc hm =>
    cases hm with
    | prepared a d =>
      refine Function.update_of_ne (hne u d (hl' u rfl) ?_) _ _
      rw [hpc]
      exact List.mem_singleton_self d
    | _ => rfl
  | blocked u ans q _ hpc hm =>
    cases hm with
    | event f st _ hm =>
      cases hm with
      | takenNull _ | taken _ =>
        refine Function.update_of_ne (hne u _ (hl' u rfl) ?_) _ _
        rw [hpc]
        exact List.mem_cons_self
      | _ => rfl
    | _ => rfl
  | poll u ans q _ hpc hm => cases hm <;> rfl
  | close u ans q _ hpc hm =>
    cases hm with
    | prepared d =>
      refine Function.update_of_ne (hne u d (hl' u rfl) ?_) _ _
      rw [hpc]
      exact List.mem_singleton_self d
    | _ => rfl
  | complete k res r _ _ => rfl
  | redeliver k ev _ => rfl
  | setForceSyscall value => rfl
  | closeDumbHandlers => rfl

omit [DecidableEq Tid] in
theorem Owned.initial (hq : 0 < cfg.queueSize) (env : Process) :
    Owned cfg (.initial cfg env : State Tid) where
  accounts := IocbPool.accounts_new hq
  custody := by
    have hH : (State.initial cfg env : State Tid).holders = fun _ => [] := by
      funext q
      cases q <;> rfl
    rw [hH]
    exact Custody.empty

/-! ### One poller, up to the sentinel -/

theorem Owned.of_soloRun {p : Tid} (h : Owned cfg s) (hsolo : SoloPoller p s)
    (hr : Reaches (next cfg) (SoloRun p) s s') : Owned cfg s' ∧ SoloPoller p s' := by
  refine hr.invariant (I := fun s => Owned cfg s ∧ SoloPoller p s) ⟨h, hsolo⟩ ?_
  rintro s l s' ⟨h, hsolo⟩ hP hn
  exact ⟨h.step hP.2.1 (hsolo.readsAlone l) hn, hsolo.step hP hn⟩

/-- **The pool accounts for its iocbs.**  In every state that submitting threads
and one poller reach, up to the sentinel, the cursors and the counter agree, the
slots from `iocbGet` on hold exactly the iocbs that are not outstanding, and so
`getIOCB` returns no iocb that is outstanding and `NULL` only when all are. -/
theorem pool_accounts {p : Tid} {env : Process} (hq : 0 < cfg.queueSize)
    (hr : Reaches (next cfg) (SoloRun p) (.initial cfg env) s) :
    (0 ≤ s.pool.used ∧ s.pool.used ≤ cfg.queueSize) ∧
    (s.pool.iocbGet < cfg.queueSize ∧ s.pool.iocbPut < cfg.queueSize) ∧
    s.pool.used = s.outstanding.card ∧
    (s.pool.iocbPut : ℤ) = (s.pool.iocbGet + cfg.queueSize - s.pool.used) % cfg.queueSize ∧
    (s.pool.free cfg.queueSize s.pool.used.toNat).Nodup ∧
    (∀ b, b ∈ s.pool.free cfg.queueSize s.pool.used.toNat ↔
      b < cfg.queueSize ∧ b ∉ s.outstanding) ∧
    (∀ b pool, s.pool.getIOCB = some (b, pool) → b < cfg.queueSize ∧ b ∉ s.outstanding) ∧
    (s.pool.getIOCB = none ↔ s.outstanding = Finset.range cfg.queueSize) := by
  obtain ⟨hown, -⟩ := (Owned.initial hq env).of_soloRun (SoloPoller.initial env) hr
  have h := hown.accounts
  have hle := h.card_le
  have hcount : s.pool.used.toNat = s.outstanding.card := by
    rw [h.used_eq, Int.toNat_natCast]
  refine ⟨⟨?_, ?_⟩, ⟨h.get_lt, h.put_lt⟩, h.used_eq, ?_, ?_, ?_, ?_, h.getIOCB_eq_none_iff⟩
  · rw [h.used_eq]
    omega
  · rw [h.used_eq]
    omega
  · have hsum : (s.pool.iocbGet + cfg.queueSize - s.outstanding.card : ℤ)
        = ((s.pool.iocbGet + (cfg.queueSize - s.outstanding.card) : ℕ) : ℤ) := by omega
    rw [h.used_eq, hsum, h.put_eq]
    exact Int.natCast_mod _ _
  · rw [hcount]
    exact h.free_nodup
  · rw [hcount]
    exact h.mem_free
  · intro b pool hg
    obtain ⟨hb, hout, -⟩ := h.getIOCB hg
    exact ⟨hb, hout⟩

/-- Two writes; the second one completes, and the poller puts its iocb back. -/
def outOfOrder : List (Label Bool) :=
  submits false ⟨.pwrite, 5, 0, 512, some 1⟩ ++ submits false ⟨.pwrite, 5, 512, 512, some 2⟩ ++
    [.complete 1 512, .call true .poll, .step true {}, .step true { events := 1 }] ++ steps true 5

theorem pool_accounts_outOfOrder : ∃ s : State Bool,
    Reaches (next ⟨2, true, true⟩) (SoloRun true) (.sample ⟨2, true, true⟩) s ∧
      s.outstanding = {0} ∧ s.pool.used = 1 := by
  obtain ⟨s, hr, hout⟩ := exists_of_exec (next ⟨2, true, true⟩) (SoloRun true)
    (.sample ⟨2, true, true⟩) outOfOrder (fun s => s.outstanding = {0}) (by decide)
  refine ⟨s, hr, hout, ?_⟩
  obtain ⟨-, -, hused, -⟩ := pool_accounts (by decide) hr
  rw [hused, hout]
  rfl

end ArtemisNative
