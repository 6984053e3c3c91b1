/-
ArtemisNative/Context.lean

The shared state of one `LibaioContext`.

A context is one Java object and one `struct io_control`.  Any number of
threads work on it; each is somewhere inside one of the Java methods

    submitWrite / submitRead    poll(callbacks, min, max)    poll()    close()

or outside all of them.  `State` holds what they share: the native control
block, the memory of its iocbs, the kernel side of the libaio queue, the JNI
global references, the Java fields, and for each thread its program counter.

`getIOCB` and `putIOCB` are critical sections under `iocbLock`, so each is one
atomic step.  `pollLock` is held over many steps and is part of the state.

Some fields are histories: no step reads them.  They say what has been handed
out, accepted, delivered and called, so that properties of a run can be stated
about its last state.  In particular an accepted request is numbered by its
position in `accepted`, and the number travels with the request and its event.
-/
import ArtemisNative.Pool

namespace ArtemisNative

/-! ### Native data -/

inductive Opcode
  | pwrite
  | pread
  deriving DecidableEq, Repr

/-- What the field `data` of an iocb holds: `NULL`, the `(void *) -1` of the
sentinel, or a JNI global reference. -/
inductive IocbData
  | null
  | stop
  | ref (r : ℕ)
  deriving DecidableEq, Repr

/-- `struct iocb`, as far as the library reads or prepares it. -/
structure Iocb where
  opcode : Opcode
  aio_fildes : ℤ
  nbytes : ℤ
  offset : ℤ
  data : IocbData
  deriving DecidableEq, Repr

/-- `struct io_event`.  The result is an `int`: a byte count or `-errno`.
`op` is the number of the accepted request, a history. -/
structure IoEvent where
  obj : ℕ
  res : ℤ
  op : ℕ
  deriving DecidableEq, Repr

/-- A request the kernel has accepted and not completed. -/
structure Request where
  obj : ℕ
  op : ℕ
  deriving DecidableEq, Repr

/-- The arguments of `submitWrite` and `submitRead`.  The callback is a Java
object, `none` for `null`. -/
structure Submission where
  opcode : Opcode
  fd : ℤ
  position : ℤ
  size : ℤ
  callback : Option ℕ
  deriving DecidableEq, Repr

/-- `io_prep_pwrite` or `io_prep_pread`, and the assignment of `data`. -/
def Submission.prep (a : Submission) (data : IocbData) : Iocb where
  opcode := a.opcode
  aio_fildes := a.fd
  nbytes := a.size
  offset := a.position
  data := data

/-- The iocb `deleteContext` prepares to end the blocked poller. -/
def sentinel (dumbWriteHandler : ℤ) : Iocb where
  opcode := .pwrite
  aio_fildes := dumbWriteHandler
  nbytes := 0
  offset := 0
  data := .stop

/-- Who submitted an accepted request; for the sentinel, with the descriptor it
was given. -/
inductive Origin
  | user (a : Submission)
  | stop (fd : ℤ)
  deriving DecidableEq, Repr

/-! ### JNI global references -/

/-- The table of global references: the Java object behind each live one.
References from `fresh` on have not been made yet; none is made twice, so a
deleted reference stays recognisable. -/
structure GlobalRefs where
  live : ℕ → Option ℕ
  fresh : ℕ
  live_fresh : ∀ r, fresh ≤ r → live r = none

namespace GlobalRefs

/-- Nobody has made a reference yet. -/
def empty : GlobalRefs := ⟨fun _ => none, 0, fun _ _ => rfl⟩

/-- `NewGlobalRef`; the reference to `null` is `NULL`. -/
def new (g : GlobalRefs) : Option ℕ → IocbData × GlobalRefs
  | none => (.null, g)
  | some obj =>
    (.ref g.fresh,
      { live := Function.update g.live g.fresh (some obj)
        fresh := g.fresh + 1
        live_fresh := fun r hr => by
          rw [Function.update_of_ne (by omega)]
          exact g.live_fresh r (by omega) })

/-- `DeleteGlobalRef`, guarded as the library guards it: `NULL` and the mark
of the sentinel are left alone. -/
def delete (g : GlobalRefs) : IocbData → GlobalRefs
  | .ref r =>
    { g with
      live := Function.update g.live r none
      live_fresh := fun r' hr => by
        rw [Function.update_apply]
        split
        · rfl
        · exact g.live_fresh r' hr }
  | _ => g

/-- The object a value of `data` refers to; `none` when it refers to nothing,
as a deleted reference does. -/
def deref (g : GlobalRefs) : IocbData → Option ℕ
  | .ref r => g.live r
  | _ => none

end GlobalRefs

/-! ### Observations -/

/-- What a run makes known, in the order of its steps. -/
inductive Obs
  /-- the kernel completed a request -/
  | completed (op : ℕ) (res : ℤ)
  /-- `blockedPoll`, `poll(callbacks, ..)` or `deleteContext` read its event -/
  | reaped (op : ℕ)
  | polled (op : ℕ)
  | discarded (op : ℕ)
  /-- `fdatasync` was called, and whether it succeeded -/
  | synced (fd : ℤ) (ok : Bool)
  /-- `SubmitInfo.onError` and `LibaioContext.done` were called on an object -/
  | onError (op : ℕ) (callback : Option ℕ) (errno : ℤ)
  | done (op : ℕ) (callback : Option ℕ)
  /-- `SubmitInfo.done` returned -/
  | returned (op : ℕ)
  /-- the poller put the iocb of the event back -/
  | putBack (op : ℕ)
  /-- `LibaioContext.done` released the permit of the event, and
  `poll(callbacks, ..)` those of all the events it returned -/
  | released (op : ℕ)
  | releasedAll (n : ℕ)
  /-- `poll(callbacks, ..)` stored the callback in the array -/
  | stored (op : ℕ) (callback : Option ℕ) (index : ℕ)
  /-- `blockedPoll` took the event for a duplicate or invalid record -/
  | warned (op : ℕ)
  /-- `blockedPoll` took the event for the sentinel, and ignored the rest of
  the batch -/
  | stopped (op : ℕ)
  | dropped (op : ℕ)
  deriving DecidableEq, Repr

/-- The request an observation is about. -/
def Obs.op? : Obs → Option ℕ
  | .completed o _ | .reaped o | .polled o | .discarded o | .onError o _ _ | .done o _
  | .returned o | .putBack o | .released o | .stored o _ _ | .warned o | .stopped o
  | .dropped o => some o
  | .synced _ _ | .releasedAll _ => none

/-! ### Program counters -/

/-- Exceptions that leave the Java methods. -/
inductive Failure
  /-- `IOException("Libaio Context is closed!")` -/
  | closed
  /-- the `IOException` around an `InterruptedException` -/
  | interrupted
  /-- `IOException("Not enough space in libaio queue")` -/
  | noSpace
  /-- `IOException("Error while submitting IO: ..")` -/
  | submitting (errno : ℤ)
  /-- `IOException("Error while calling io_getevents IO: ..")` -/
  | polling (errno : ℤ)
  /-- whatever a callback threw, or the array store -/
  | callback
  deriving DecidableEq, Repr

/-- How the last call of a thread ended. -/
inductive Outcome
  | none
  | returned
  | polled (n : ℤ) (callbacks : List (Option ℕ))
  | threw (e : Failure)
  deriving DecidableEq, Repr

/-- `submitWrite` and `submitRead`, behind the check of `closed`. -/
inductive SubmitPc
  | acquire (a : Submission)
  | getIOCB (a : Submission)
  | prep (a : Submission) (iocb : ℕ)
  | ioSubmit (a : Submission) (iocb : ℕ)
  | deleteRef (iocb : ℕ) (errno : ℤ)
  | putIOCB (iocb : ℕ) (errno : ℤ)
  deriving DecidableEq, Repr

/-- The locals of `blockedPoll`, whether a Java exception is pending, and the
number of local references its native frame holds. -/
structure Frame where
  i : ℕ
  result : ℕ
  lastFile : ℤ
  pending : Bool
  localRefs : ℕ
  deriving DecidableEq, Repr

/-- The body of the loop of `blockedPoll` over the events of a batch.  `test`
is the head of the loop; from `put` on the local `obj` is at hand. -/
inductive Stage
  | test
  | stop
  | sync
  | onError
  | take
  | put (obj : IocbData)
  | done (obj : IocbData)
  | inDone (obj : IocbData)
  | release (obj : IocbData)
  | deleteRef (obj : IocbData)
  | warn
  deriving DecidableEq, Repr

inductive BlockedPc
  | lock
  | getEvents (f : Frame)
  | event (f : Frame) (st : Stage)
  | unlock (o : Outcome)
  deriving DecidableEq, Repr

/-- The locals of the native `poll`, and the caller's array. -/
structure PollFrame where
  i : ℕ
  result : ℕ
  callbacks : List (Option ℕ)
  pending : Bool
  deriving DecidableEq, Repr

/-- `SetObjectArrayElement` at index `i`. -/
def PollFrame.store (f : PollFrame) (callback : Option ℕ) : PollFrame :=
  { f with callbacks := f.callbacks.set f.i callback }

/-- The body of the loop of `poll`; `onError` is the head of the loop. -/
inductive PollStage
  | onError
  | store
  | deleteRef
  | put
  deriving DecidableEq, Repr

inductive PollPc
  | getEvents (callbacks : List (Option ℕ)) (min max : ℤ)
  | event (f : PollFrame) (st : PollStage)
  | release (n : ℤ) (callbacks : List (Option ℕ)) (pending : Bool)
  deriving DecidableEq, Repr

/-- `close`, behind the exchange of `closed`, and `deleteContext`. -/
inductive ClosePc
  | tryAcquire
  | getIOCB
  | prep (iocb : ℕ)
  | ioSubmit (iocb : ℕ)
  | putIOCB (iocb : ℕ) (errno : ℤ)
  | lock
  | unlock
  | getEvents
  | put (i result : ℕ)
  | queueRelease
  | destroy
  | free
  deriving DecidableEq, Repr

inductive Pc
  | idle (o : Outcome)
  | submit (p : SubmitPc)
  | blocked (p : BlockedPc)
  | poll (p : PollPc)
  | close (p : ClosePc)
  deriving DecidableEq, Repr

/-! ### The shared state -/

/-- The arguments of the constructor of `LibaioContext`. -/
structure Config where
  queueSize : ℕ
  useSemaphore : Bool
  useFdatasync : Bool
  deriving DecidableEq, Repr

/-- What a context finds when it is constructed: the contents of the memory it
gets from `malloc`, the global references of the rest of the process, and the
variables of the native library. -/
structure Process where
  iocb : ℕ → Iocb
  events : ℕ → IoEvent
  refs : GlobalRefs
  forceSysCall : Bool
  dumbWriteHandler : ℤ

structure State (Tid : Type) where
  /-- `struct io_control`: the pool, the events buffer, the lock, and whether
  `deleteContext` has freed it -/
  pool : IocbPool
  events : ℕ → IoEvent
  pollLock : Option Tid
  freed : Bool
  /-- the iocbs that the pointers of the pool point to -/
  iocb : ℕ → Iocb
  /-- the kernel side of the queue: requests in flight, and completed events in
  the order of the completion ring -/
  inflight : List Request
  ring : List IoEvent
  /-- process-wide variables of the native library -/
  forceSysCall : Bool
  dumbWriteHandler : ℤ
  refs : GlobalRefs
  /-- fields of the Java object: the flag, and the permits of `ioSpace` -/
  closed : Bool
  ioSpace : ℕ
  pc : Tid → Pc
  /-- history: iocbs out of the pool, and all pointers `getIOCB` returned -/
  outstanding : Finset ℕ
  handed : List ℕ
  /-- history: accepted requests, completed events, whether the `tryAcquire`
  of `close` has succeeded, the pointers `iocb_destroy` has passed to `free`,
  and the observations -/
  accepted : List Origin
  delivered : List IoEvent
  drained : Bool
  destroyed : List ℕ
  log : List Obs

namespace State

variable {Tid : Type} [DecidableEq Tid]

/-- A context right after its construction. -/
def initial (cfg : Config) (env : Process) : State Tid where
  pool := .new cfg.queueSize
  events := env.events
  pollLock := none
  freed := false
  iocb := env.iocb
  inflight := []
  ring := []
  forceSysCall := env.forceSysCall
  dumbWriteHandler := env.dumbWriteHandler
  refs := env.refs
  closed := false
  ioSpace := if cfg.useSemaphore then cfg.queueSize else 0
  pc := fun _ => .idle .none
  outstanding := ∅
  handed := []
  accepted := []
  delivered := []
  drained := false
  destroyed := []
  log := []

/-- Thread `t` moves on. -/
def goto (s : State Tid) (t : Tid) (p : Pc) : State Tid :=
  { s with pc := Function.update s.pc t p }

def record (s : State Tid) (obs : List Obs) : State Tid :=
  { s with log := s.log ++ obs }

/-- `getIOCB` has returned `b` and left the pool `pool`. -/
def handOut (s : State Tid) (b : ℕ) (pool : IocbPool) : State Tid :=
  { s with
    pool := pool
    outstanding := insert b s.outstanding
    handed := s.handed ++ [b] }

/-- `putIOCB`. -/
def putBack (s : State Tid) (b : ℕ) : State Tid :=
  { s with pool := s.pool.putIOCB b, outstanding := s.outstanding.erase b }

def setIocb (s : State Tid) (b : ℕ) (m : Iocb) : State Tid :=
  { s with iocb := Function.update s.iocb b m }

def deleteRef (s : State Tid) (data : IocbData) : State Tid :=
  { s with refs := s.refs.delete data }

/-- The kernel accepts the iocb `b`. -/
def accept (s : State Tid) (b : ℕ) (origin : Origin) : State Tid :=
  { s with
    inflight := s.inflight ++ [⟨b, s.accepted.length⟩]
    accepted := s.accepted ++ [origin] }

/-- The kernel completes its `k`-th request in flight with the event `ev`. -/
def complete (s : State Tid) (k : ℕ) (ev : IoEvent) : State Tid :=
  { s with
    inflight := s.inflight.eraseIdx k
    ring := s.ring ++ [ev]
    delivered := s.delivered ++ [ev]
    log := s.log ++ [.completed ev.op ev.res] }

/-- `ringio_get_events` returns `k` events: the oldest ones move from the
completion ring into the events buffer.  This is what a call comes to with one
reader at a time. -/
def getEvents (s : State Tid) (k : ℕ) (obs : ℕ → Obs) : State Tid :=
  { s with
    events := fun j => ((s.ring.take k)[j]?).getD (s.events j)
    ring := s.ring.drop k
    log := s.log ++ (s.ring.take k).map fun e => obs e.op }

/-- A return value `ringio_get_events` may have: an error, or a number of
events that are there and that the caller has room for. -/
def mayReturn (s : State Tid) (max result : ℤ) : Prop :=
  result < 0 ∨ (result ≤ max ∧ result.toNat ≤ s.ring.length)

instance (s : State Tid) (max result : ℤ) : Decidable (s.mayReturn max result) := by
  unfold mayReturn
  infer_instance

end State

end ArtemisNative
