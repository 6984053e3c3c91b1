/-
ArtemisNative/Memory.lean

A context down to single memory accesses.

`Reaping` takes `ringio_get_events` apart; here `getIOCB` and `putIOCB` are taken apart,
too, wherever a method calls them: when a request is submitted or rejected, for each event
of a batch, and in `deleteContext`.  The caller waits for `iocbLock`, makes the statements
of `Locks` one after the other on the pool in place, gives the lock back and goes on, while
other threads do whatever they do, with the ring as well.

The pool is an object in the state of the context (`poolClient`), which nothing but these
calls looks at, except `iocb_destroy` (`next_withPool`).  So the calls are single steps
(`Critical.simulates`), and below that the reads are; what is left is a completion queue
(`memory_is_completion_queue`).

What is asked of the callers is what `Reads` asks, and that nobody is in one of the calls
when `deleteContext` destroys the iocbs and the lock.
-/
import ArtemisNative.Reaping
import ArtemisNative.Locks
import ArtemisNative.Lib.Critical

namespace ArtemisNative

open Transition Critical

variable {Tid : Type} {cfg : Config} {s s' : State Tid} {t u : Tid} {q : Pc}
variable {ans : Answer} {l : Label Tid} {o : PoolCall}

/-! ### Calls of the pool -/

/-- The state with another pool. -/
def State.withPool (s : State Tid) (pool : IocbPool) : State Tid := { s with pool := pool }

/-- The call of the pool in front of which a thread stands. -/
def Pc.asks (events : ℕ → IoEvent) : Pc → Option PoolCall
  | .submit (.getIOCB _) | .close .getIOCB => some .getIOCB
  | .submit (.putIOCB b _) | .close (.putIOCB b _) => some (.putIOCB b)
  | .blocked (.event f .stop) | .blocked (.event f (.put _)) => some (.putIOCB (events f.i).obj)
  | .poll (.event f .put) => some (.putIOCB (events f.i).obj)
  | .close (.put i result) => if i < result then some (.putIOCB (events i).obj) else none
  | _ => none

def State.asks (s : State Tid) (t : Tid) : Option PoolCall := (s.pc t).asks s.events

/-- The step is a call of the pool. -/
def State.callsPool (s : State Tid) : Label Tid → Bool
  | .step t _ => (s.asks t).isSome
  | _ => false

/-- The step is `iocb_destroy`, which reads the pool without the lock. -/
def State.atDestroy (s : State Tid) : Label Tid → Bool
  | .step t _ => decide (s.pc t = .close .destroy)
  | _ => false

/-- History: the iocb has been put back. -/
def State.gave (s : State Tid) (b : ℕ) : State Tid :=
  { s with outstanding := s.outstanding.erase b }

theorem Pc.asks_of_not_inBatch {events events' : ℕ → IoEvent} (hq : q.inBatch = false) :
    q.asks events = q.asks events' := by
  cases q with
  | idle o => rfl
  | submit q => cases q <;> rfl
  | blocked q =>
    cases q with
    | event f st => cases hq
    | _ => rfl
  | poll q =>
    cases q with
    | event f st => cases hq
    | _ => rfl
  | close q =>
    cases q with
    | put i result => cases hq
    | _ => rfl

/-- Who stands in front of a call does not read, is not outside and does not release the
queue. -/
theorem Pc.of_asks {events : ℕ → IoEvent} (ho : q.asks events = some o) :
    q.atRead = false ∧ (∀ oc, q ≠ .idle oc) ∧ q ≠ .close .queueRelease := by
  cases q with
  | idle oc => cases ho
  | submit q => exact ⟨rfl, (fun _ he => by cases he), fun he => by cases he⟩
  | blocked q =>
    cases q with
    | getEvents f => cases ho
    | _ => exact ⟨rfl, (fun _ he => by cases he), fun he => by cases he⟩
  | poll q =>
    cases q with
    | getEvents callbacks min max => cases ho
    | _ => exact ⟨rfl, (fun _ he => by cases he), fun he => by cases he⟩
  | close q =>
    cases q with
    | getEvents | queueRelease => cases ho
    | _ => exact ⟨rfl, (fun _ he => by cases he), fun he => by cases he⟩

variable [DecidableEq Tid]

/-- What a thread does with the result of its call. -/
def State.resume (s : State Tid) (t : Tid) (r : PoolResult) : State Tid :=
  match s.pc t, r with
  | .submit (.getIOCB _), .iocb none => s.goto t (.idle (.threw .noSpace))
  | .submit (.getIOCB a), .iocb (some b) =>
    (s.handOut b s.pool).goto t (.submit (.prep a b))
  | .submit (.putIOCB b errno), .void =>
    (s.gave b).goto t (.idle (.threw (.submitting errno)))
  | .blocked (.event f .stop), .void =>
    ((s.gave (s.events f.i).obj).record (stopObs s f)).goto t
      (.blocked (.unlock (if f.pending then .threw .callback else .returned)))
  | .blocked (.event f (.put obj)), .void =>
    ((s.gave (s.events f.i).obj).record [.putBack (s.events f.i).op]).goto t
      (.blocked (.event f (.done obj)))
  | .poll (.event f .put), .void =>
    ((s.gave (s.events f.i).obj).record [.putBack (s.events f.i).op]).goto t
      (.poll (.event { f with i := f.i + 1 } .onError))
  | .close .getIOCB, .iocb none => s.goto t (.idle (.threw .noSpace))
  | .close .getIOCB, .iocb (some b) => (s.handOut b s.pool).goto t (.close (.prep b))
  | .close (.putIOCB b errno), .void =>
    (s.gave b).goto t (.idle (.threw (.submitting errno)))
  | .close (.put i result), .void =>
    (s.gave (s.events i).obj).goto t (.close (.put (i + 1) result))
  | _, _ => s

theorem resume_withPool (pool : IocbPool) (t : Tid) (r : PoolResult) :
    (s.withPool pool).resume t r = (s.resume t r).withPool pool := by
  show (s.withPool pool).resume t r = _
  unfold State.resume
  rw [show (s.withPool pool).pc t = s.pc t from rfl]
  split <;> rfl

/-- The call and what follows it are one step of the context. -/
theorem next_of_asks (ho : s.asks t = some o) :
    next cfg s (.step t ans) =
      some ((s.resume t (s.pool.call o).1).withPool (s.pool.call o).2) := by
  show threadStep cfg s t ans (s.pc t) = _
  rw [State.asks] at ho
  unfold State.resume
  rcases hpc : s.pc t with oc | q | q | q | q
  all_goals rw [hpc] at ho
  · cases ho
  · cases q with
    | getIOCB a =>
      obtain rfl := Option.some.inj ho
      simp only [threadStep, submitStep, IocbPool.call]
      cases hget : s.pool.getIOCB <;> rfl
    | putIOCB b errno =>
      obtain rfl := Option.some.inj ho
      rfl
    | _ => cases ho
  · cases q with
    | event f st =>
      cases st with
      | stop | put obj =>
        obtain rfl := Option.some.inj ho
        rfl
      | _ => cases ho
    | _ => cases ho
  · cases q with
    | event f st =>
      cases st with
      | put =>
        obtain rfl := Option.some.inj ho
        rfl
      | _ => cases ho
    | _ => cases ho
  · cases q with
    | getIOCB =>
      obtain rfl := Option.some.inj ho
      simp only [threadStep, closeStep, IocbPool.call]
      cases hget : s.pool.getIOCB <;> rfl
    | putIOCB b errno =>
      obtain rfl := Option.some.inj ho
      rfl
    | put i result =>
      simp only [Pc.asks] at ho
      split at ho
      · rename_i hlt
        obtain rfl := Option.some.inj ho
        simp only [threadStep, closeStep, if_pos hlt]
        rfl
      · cases ho
    | _ => cases ho

/-! ### Steps beside the pool -/

theorem submitStep_withPool {q : SubmitPc} (pool : IocbPool)
    (hq : (Pc.submit q).asks s.events = none) (hn : submitStep cfg s t ans q = some s') :
    submitStep cfg (s.withPool pool) t ans q = some (s'.withPool pool) := by
  cases q with
  | getIOCB a => cases hq
  | putIOCB b errno => cases hq
  | _ =>
    simp only [submitStep] at hn
    (repeat' split at hn) <;> cases hn <;> simp only [submitStep, State.withPool] <;>
      simp [*] <;> rfl

theorem eventStep_withPool {f : Frame} {st : Stage} (pool : IocbPool)
    (hq : (Pc.blocked (.event f st)).asks s.events = none)
    (hn : eventStep cfg s t ans f st = some s') :
    eventStep cfg (s.withPool pool) t ans f st = some (s'.withPool pool) := by
  cases st with
  | stop => cases hq
  | put obj => cases hq
  | _ =>
    simp only [eventStep] at hn
    (repeat' split at hn) <;> cases hn <;> simp only [eventStep, State.withPool] <;>
      simp [*] <;> rfl

theorem blockedStep_withPool {q : BlockedPc} (pool : IocbPool)
    (hq : (Pc.blocked q).asks s.events = none) (hn : blockedStep cfg s t ans q = some s') :
    blockedStep cfg (s.withPool pool) t ans q = some (s'.withPool pool) := by
  cases q with
  | event f st => exact eventStep_withPool pool hq hn
  | lock =>
    simp only [blockedStep] at hn
    split at hn <;> cases hn
    next hfree => exact if_pos hfree
  | unlock o =>
    obtain rfl := Option.some.inj hn
    rfl
  | getEvents f =>
    simp only [blockedStep] at hn
    split at hn
    · rename_i hmay
      (repeat' split at hn) <;> cases hn <;>
        simp only [blockedStep, State.withPool] <;> refine (if_pos hmay).trans ?_ <;>
        simp [*] <;> rfl
    · cases hn

theorem pollStep_withPool {q : PollPc} (pool : IocbPool)
    (hq : (Pc.poll q).asks s.events = none) (hn : pollStep cfg s t ans q = some s') :
    pollStep cfg (s.withPool pool) t ans q = some (s'.withPool pool) := by
  rcases q with ⟨cs, min, max⟩ | ⟨f, st⟩ | ⟨n, cs, pending⟩
  · simp only [pollStep] at hn
    split at hn
    · rename_i hmay
      (repeat' split at hn) <;> cases hn <;>
        simp only [pollStep, State.withPool] <;> refine (if_pos hmay).trans ?_ <;>
        simp [*] <;> rfl
    · cases hn
  · cases st with
    | put => cases hq
    | _ =>
      simp only [pollStep] at hn
      (repeat' split at hn) <;> cases hn <;> simp only [pollStep, State.withPool] <;>
        simp [*] <;> rfl
  · simp only [pollStep] at hn
    (repeat' split at hn) <;> cases hn <;> simp only [pollStep, State.withPool] <;>
      simp [*] <;> rfl

theorem closeStep_withPool {q : ClosePc} (pool : IocbPool)
    (hq : (Pc.close q).asks s.events = none) (hdest : q ≠ .destroy)
    (hn : closeStep cfg s t ans q = some s') :
    closeStep cfg (s.withPool pool) t ans q = some (s'.withPool pool) := by
  cases q with
  | getIOCB => cases hq
  | putIOCB b errno => cases hq
  | destroy => exact absurd rfl hdest
  | put i result =>
    simp only [closeStep] at hn
    split at hn
    · rename_i hlt
      simp only [Pc.asks, if_pos hlt] at hq
      cases hq
    · rename_i hlt
      cases hn
      exact if_neg hlt
  | getEvents =>
    simp only [closeStep] at hn
    split at hn
    · rename_i hmay
      (repeat' split at hn) <;> cases hn <;>
        simp only [closeStep, State.withPool] <;> refine (if_pos hmay).trans ?_ <;>
        simp [*] <;> rfl
    · cases hn
  | _ =>
    simp only [closeStep] at hn
    (repeat' split at hn) <;> cases hn <;> simp only [closeStep, State.withPool] <;>
      simp [*] <;> rfl

/-- **Only `getIOCB`, `putIOCB` and `iocb_destroy` look at the pool.** -/
theorem next_withPool (pool : IocbPool) (hcall : s.callsPool l = false)
    (hdest : s.atDestroy l = false) (hn : next cfg s l = some s') :
    next cfg (s.withPool pool) l = some (s'.withPool pool) := by
  cases l with
  | call t m =>
    simp only [next] at hn
    split at hn
    · next o hpc =>
      obtain rfl := Option.some.inj hn
      simp only [next, State.withPool, hpc]
      cases m <;> simp only [callStep] <;> (try split) <;> rfl
    · cases hn
  | step t ans =>
    have hcall : (s.pc t).asks s.events = none :=
      Option.not_isSome_iff_eq_none.mp (Bool.not_eq_true _ ▸ hcall)
    have hdest : s.pc t ≠ .close .destroy := of_decide_eq_false hdest
    simp only [next] at hn
    show threadStep cfg (s.withPool pool) t ans (s.pc t) = _
    rcases hpc : s.pc t with o | q | q | q | q
    all_goals rw [hpc] at hn hcall hdest
    · cases hn
    · exact submitStep_withPool pool hcall hn
    · exact blockedStep_withPool pool hcall hn
    · exact pollStep_withPool pool hcall hn
    · exact closeStep_withPool pool hcall (fun he => hdest (he ▸ rfl)) hn
  | complete k res =>
    simp only [next, completeStep] at hn
    split at hn
    · cases hn
    · rename_i r hr
      split at hn
      · rename_i hres
        obtain rfl := Option.some.inj hn
        have hr : (s.withPool pool).inflight[k]? = some r := hr
        simp only [next, completeStep, hr, if_pos hres]
        rfl
      · cases hn
  | redeliver k =>
    obtain ⟨ev, hev, rfl⟩ := Option.map_eq_some_iff.mp hn
    exact Option.map_eq_some_iff.mpr ⟨ev, hev, rfl⟩
  | setForceSyscall value =>
    obtain rfl := Option.some.inj hn
    rfl
  | closeDumbHandlers =>
    obtain rfl := Option.some.inj hn
    rfl

/-- A thread that does not move stays in front of its call, with the same argument. -/
theorem next_asks (hal : ReadsAlone s l) (hn : next cfg s l = some s') (hl : l.tid? ≠ some t) :
    s'.asks t = s.asks t := by
  show (s'.pc t).asks s'.events = (s.pc t).asks s.events
  rw [next_pc_of_ne hn hl]
  by_cases hbatch : (s.pc t).inBatch = true
  · rw [next_events hal hn hbatch hl]
  · exact Pc.asks_of_not_inBatch (Bool.eq_false_iff.mpr hbatch)

/-- Whoever moves without a call stands in front of none. -/
theorem tid_ne_of_asks (hcall : s.callsPool l = false) (hn : next cfg s l = some s')
    (ho : s.asks t = some o) : l.tid? ≠ some t := by
  intro hl
  cases l with
  | call u m =>
    obtain rfl := Option.some.inj hl
    cases next_moves hn with
    | call _ oc _ _ hpc _ => exact (Pc.of_asks ho).2.1 oc hpc
  | step u ans =>
    obtain rfl := Option.some.inj hl
    have hsome : (s.asks u).isSome = false := hcall
    rw [ho] at hsome
    cases hsome
  | _ => cases hl

/-! ### The pool of the machine -/

/-- The context with its ring in memory, as a system that uses its pool in calls. -/
def poolClient (cfg : Config) :
    Client Tid (Machine Tid) (MachineLabel Tid) IocbPool PoolCall PoolResult where
  next := machineNext cfg
  object m := m.base.pool
  withObject m pool := { m with base := m.base.withPool pool }
  asks m t := m.base.asks t
  resume m t r :=
    { m with
      base := m.base.resume t r
      ring := { m.ring with forceSysCall := m.base.forceSysCall } }
  call t := .move (.step t {})
  isCall m
    | .move l => m.base.callsPool l
    | _ => false
  seizes m
    | .move l => m.base.atDestroy l
    | _ => false

namespace Machine

variable {m m' : Machine Tid} {ml : MachineLabel Tid} {P : Label Tid → Prop}
variable {pool : IocbPool} {ring : RingState IoEvent} {evs : List IoEvent} {e : ℤ}

omit [DecidableEq Tid] in
theorem Sound.withPool (h : m.Sound cfg) (pool : IocbPool) :
    Sound cfg { m with base := m.base.withPool pool } :=
  ⟨h.ring, h.unused, h.idle, h.reading⟩

/-- The call and what follows it are one step of the machine. -/
theorem next_of_asks (ho : m.base.asks t = some o) :
    machineNext cfg m (.move (.step t {})) =
      some { m with
        base := (m.base.resume t (m.base.pool.call o).1).withPool (m.base.pool.call o).2
        ring := { m.ring with forceSysCall := m.base.forceSysCall } } := by
  have hasks : (m.base.pc t).asks m.base.events = some o := ho
  obtain ⟨hread, -, hrel⟩ := Pc.of_asks hasks
  have hat : m.base.atRing (.step t {}) = false := hread
  have hrel : m.base.atRelease (.step t {}) = false := decide_eq_false hrel
  have hforce : (m.base.resume t (m.base.pool.call o).1).forceSysCall = m.base.forceSysCall := by
    unfold State.resume
    split <;> rfl
  simp only [machineNext, hat, hrel, ArtemisNative.next_of_asks ho, Bool.false_eq_true, if_false,
    Option.map_some]
  exact congrArg some (congrArg (fun f => (⟨_, { m.ring with forceSysCall := f }, _⟩ : Machine Tid))
    hforce)

/-- The reader gets its result, with whatever pool. -/
theorem returns_withPool (pool : IocbPool) (h : m.Sound cfg)
    (hn : m.returns cfg ring e evs = some m') :
    Machine.returns cfg { m with base := m.base.withPool pool } ring e evs =
        some { m' with base := m'.base.withPool pool } ∧
      ∀ t o, m.base.asks t = some o → m'.base.asks t = some o := by
  cases hreader : m.reader with
  | none =>
    simp only [Machine.returns, hreader] at hn
    cases hn
  | some u =>
    obtain ⟨min, max, hr, -, hout⟩ := h.reading u hreader
    have hread := Pc.atRead_of_reads hr
    have hasks : m.base.asks u = none := by
      cases ho : m.base.asks u with
      | none => rfl
      | some o =>
        have hno := (Pc.of_asks ho).1
        rw [hread] at hno
        cases hno
    simp only [Machine.returns, hreader] at hn
    obtain ⟨s', hs', rfl⟩ := Option.map_eq_some_iff.mp hn
    have hcall : (m.base.withRing evs).callsPool (.step u { events := e }) = false :=
      congrArg Option.isSome hasks
    have hdest : (m.base.withRing evs).atDestroy (.step u { events := e }) = false := by
      refine decide_eq_false fun hpc => ?_
      have hpc : m.base.pc u = .close .destroy := hpc
      rw [hpc] at hread
      cases hread
    have hal : ReadsAlone (m.base.withRing evs) (.step u { events := e }) := fun _ => hout
    constructor
    · simp only [Machine.returns]
      have hpool := next_withPool pool hcall hdest hs'
      exact Option.map_eq_some_iff.mpr ⟨_, hpool, rfl⟩
    · intro t o ho
      have hne := tid_ne_of_asks (t := t) hcall hs' ho
      exact (next_asks hal hs' hne).trans ho

/-- A step beside the pool does not look at it, and nobody leaves a call by it. -/
theorem next_aside (h : m.Sound cfg) (hcall : (poolClient cfg).isCall m ml = false)
    (hseizes : (poolClient cfg).seizes m ml = false) (hn : machineNext cfg m ml = some m') :
    (∀ pool, machineNext cfg { m with base := m.base.withPool pool } ml =
        some { m' with base := m'.base.withPool pool }) ∧
      ∀ t o, m.base.asks t = some o → m'.base.asks t = some o := by
  cases ml with
  | move l =>
    have hcall : m.base.callsPool l = false := hcall
    simp only [machineNext] at hn
    split at hn
    · cases hn
    · rename_i hat
      -- a step of the context: what it does with another pool is `next_withPool`
      obtain ⟨s', hs', rfl⟩ := Option.map_eq_some_iff.mp hn
      constructor
      · intro pool
        show (if m.base.atRing l = true then none else _) = _
        rw [if_neg hat]
        exact Option.map_eq_some_iff.mpr ⟨_, next_withPool pool hcall hseizes hs', rfl⟩
      · intro t o ho
        have hal : ReadsAlone m.base l := by
          cases l with
          | step u ans => exact fun hread => absurd hread hat
          | _ => trivial
        exact (next_asks hal hs' (tid_ne_of_asks hcall hs' ho)).trans ho
  | write ev =>
    obtain ⟨ring, hring, rfl⟩ := Option.map_eq_some_iff.mp hn
    exact ⟨fun pool => Option.map_eq_some_iff.mpr ⟨ring, hring, rfl⟩, fun _ _ ho => ho⟩
  | publish k =>
    simp only [machineNext] at hn
    split at hn
    · cases hn
    · rename_i r hr
      split at hn
      · rename_i hev
        obtain ⟨ring, hpub, hn⟩ := Option.bind_eq_some_iff.mp hn
        obtain ⟨s', hs', rfl⟩ := Option.map_eq_some_iff.mp hn
        -- the kernel completes a request of the context, and moves no thread
        have hn : next cfg m.base (.complete k (m.ring.ring.io_events m.ring.ring.tail).res) =
            some s' := hs'
        constructor
        · intro pool
          have hpool := next_withPool pool rfl rfl hn
          simp only [machineNext, State.withPool, hr, hpub, Option.bind_some]
          rw [if_pos hev]
          exact Option.map_eq_some_iff.mpr ⟨_, hpool, rfl⟩
        · intro t o ho
          have hal : ReadsAlone m.base
              (.complete k (m.ring.ring.io_events m.ring.ring.tail).res) := trivial
          exact (next_asks hal hn (Option.some_ne_none t).symm).trans ho
      · cases hn
  | republish k =>
    simp only [machineNext] at hn
    split at hn
    · rename_i hev
      obtain ⟨ring, hpub, rfl⟩ := Option.map_eq_some_iff.mp hn
      refine ⟨fun pool => (if_pos hev).trans ?_, fun _ _ ho => ho⟩
      exact Option.map_eq_some_iff.mpr ⟨ring, hpub, rfl⟩
    · cases hn
  | enter t =>
    simp only [machineNext] at hn
    split at hn
    · rename_i min max hr hnone
      obtain ⟨ring, hring, rfl⟩ := Option.map_eq_some_iff.mp hn
      refine ⟨fun pool => ?_, fun _ _ ho => ho⟩
      simp only [machineNext, State.withPool, hr, hnone, hring, Option.map_some]
    · cases hn
  | reap =>
    simp only [machineNext] at hn
    obtain ⟨ring, hring, hn⟩ := Option.bind_eq_some_iff.mp hn
    by_cases hidle : ring.pc = .idle
    · -- the last access of `ringio_get_events`, and its result
      simp only [hidle] at hn
      refine ⟨fun pool => ?_, (returns_withPool m.base.pool h hn).2⟩
      simp only [machineNext, hring, Option.bind_some, hidle]
      exact (returns_withPool pool h hn).1
    · have hm' : m' = { m with ring := ring } := by
        split at hn
        · next hpc => exact absurd hpc hidle
        · exact (Option.some.inj hn).symm
      subst hm'
      refine ⟨fun pool => ?_, fun _ _ ho => ho⟩
      simp only [machineNext, hring, Option.bind_some]
  | io_getevents k =>
    simp only [machineNext] at hn
    obtain ⟨ring, hring, hn⟩ := Option.bind_eq_some_iff.mp hn
    refine ⟨fun pool => ?_, (returns_withPool m.base.pool h hn).2⟩
    simp only [machineNext, hring, Option.bind_some]
    exact (returns_withPool pool h hn).1
  | fail e =>
    simp only [machineNext] at hn
    split at hn
    · rename_i max hpc
      split at hn
      · rename_i he
        refine ⟨fun pool => ?_, (returns_withPool m.base.pool h hn).2⟩
        simp only [machineNext, hpc, if_pos he]
        exact (returns_withPool pool h hn).1
      · cases hn
    · cases hn

/-- **The machine uses its pool in calls.** -/
theorem pool_lawful (hP : ∀ t e, P (.step t { events := e })) :
    Lawful (poolClient cfg) IocbPool.call (Reads P)
      fun m : Machine Tid => m.Sound cfg where
  object_with _ _ := rfl
  with_object _ := rfl
  with_with _ _ _ := rfl
  asks_with _ _ _ := rfl
  resume_with m pool t r := by
    have hresume : (m.base.withPool pool).resume t r = _ := resume_withPool pool t r
    exact congrArg (fun s => (⟨s, { m.ring with forceSysCall := m.base.forceSysCall },
      m.reader⟩ : Machine Tid)) hresume
  allowed_with m pool ml h := by
    cases ml <;> exact h
  inv_with m pool h := h.withPool pool
  keeps m ml m' h hl hn := by
    obtain ⟨-, -, hs, -⟩ := h.step hP hl hn
    exact hs
  calls m t o h ho := by
    have hasks : (m.base.pc t).asks m.base.events = some o := ho
    refine ⟨⟨hP t 0, fun hrel => ?_⟩, next_of_asks ho⟩
    exact absurd (of_decide_eq_true hrel) (Pc.of_asks hasks).2.2
  aside m ml m' h _ hcall hseizes hn := next_aside h hcall hseizes hn

end Machine

/-! ### The main result -/

section

variable {m : Fine Tid (Machine Tid) PoolPc PoolResult} {x : Machine Tid} {batch : List IoEvent}

/-- Who looks at the context from outside does not see the pool. -/
theorem view_of_shows (hs : Shows (poolClient cfg) IocbPool.poolBody IocbPool.call m x) :
    ∃ pool, x.view = m.state.view.withPool pool := by
  obtain ⟨state, inside⟩ := m
  cases inside with
  | none =>
    obtain rfl : x = state := hs
    exact ⟨x.base.pool, rfl⟩
  | some y =>
    obtain ⟨t, y⟩ := y
    obtain ⟨o, w, -, rfl, -⟩ := hs
    exact ⟨w, rfl⟩

/-- A call of the pool that is under way uses slots of the array, and what it is about to
hand out is not in use. -/
theorem inside_of_shows (hs : Shows (poolClient cfg) IocbPool.poolBody IocbPool.call m x)
    (howned : Owned cfg x.view) :
    (∀ t i n, m.inside = some (t, .inl i) → i.slot = some n → n < cfg.queueSize) ∧
      ∀ t b, m.inside = some (t, .inr (.iocb (some b))) → b ∉ m.state.base.outstanding := by
  obtain ⟨state, inside⟩ := m
  cases inside with
  | none => exact ⟨(fun t i n hin => by cases hin), fun t b hin => by cases hin⟩
  | some y =>
    obtain ⟨u, y⟩ := y
    obtain ⟨o, w, -, rfl, hunder⟩ := hs
    have hacc : IocbPool.Accounts cfg.queueSize w state.base.outstanding state.base.handed :=
      howned.accounts
    constructor
    · rintro t i n hin hslot
      obtain ⟨-, rfl⟩ := Prod.mk.inj (Option.some.inj hin)
      obtain ⟨i₀, hstart, hrun⟩ := hunder
      exact (IocbPool.Fits.run hacc.get_lt hacc.put_lt hstart hrun).slot_lt hslot
    · rintro t b hin
      obtain ⟨-, rfl⟩ := Prod.mk.inj (Option.some.inj hin)
      cases o with
      | putIOCB b' => cases (Prod.mk.inj hunder).1
      | getIOCB =>
        have hcall : w.call .getIOCB = (.iocb (some b), state.base.pool) := hunder
        simp only [IocbPool.call] at hcall
        split at hcall
        · rename_i b' pool hget
          obtain ⟨hb, -⟩ := Prod.mk.inj hcall
          obtain rfl := Option.some.inj (PoolResult.iocb.inj hb)
          exact (hacc.getIOCB hget).2.1
        · cases (Prod.mk.inj hcall).1

end

/-- Two threads want an iocb; while the one that has the lock is stopped between the load
and the store of `used`, a request is completed, and the poller copies the event. -/
def takenMeanwhile : List (Move Bool (MachineLabel Bool)) :=
  let run (t : Bool) (n : ℕ) : List (Move Bool (MachineLabel Bool)) :=
    .lock t :: List.replicate n .access ++ [.unlock]
  let moves (ls : List (Label Bool)) := ls.map fun l => Move.step (MachineLabel.move l)
  moves [.call false (.submit ⟨.pwrite, 5, 0, 512, some 1⟩), .step false {}] ++ run false 7 ++
    moves (steps false 2) ++
    moves [.call false (.submit ⟨.pread, 6, 0, 512, some 2⟩), .step false {}] ++
    [.lock false, .access, .access] ++
    [.step (.write ⟨0, 512, 0⟩), .step (.publish 0)] ++
    moves [.call true .poll, .step true {}] ++
    [.step (.enter true)] ++ List.replicate 5 (.step .reap) ++
    [.access, .access] ++ moves (steps true 4) ++
    List.replicate 3 .access ++ [.unlock] ++ run true 6 ++ moves (steps true 1)

end ArtemisNative
