/-
ArtemisNative/Methods.lean

The atomic steps of the methods of `LibaioContext`, Java and native.

Each method has a step function: from the program counter of a thread and what
the environment answers (`Answer`) to the next state, or `none` where the
thread has to wait or the environment cannot answer so.  An answer carries one
field for each call out of the library; a step reads the field of the call it
makes and ignores the others.

What the kernel and the user's callbacks may do is left open:

* `io_submit` accepts or rejects with any error, but accepts no negative
  descriptor;
* `ringio_get_events` fails with any error, or returns some of the completed
  events, oldest first (see `mayReturn`);
* the kernel completes requests in any order, with any result that is a byte
  count or an error of C type `int`;
* a callback returns or throws; while an exception is pending JNI leaves open
  whether a further call is entered (`skipped`).

`next` puts the methods together: `call` starts a method on a thread that is
outside all of them, `step` lets a thread move, the other labels are steps of
the kernel and of the rest of the process.
-/
import ArtemisNative.Context
import ArtemisNative.Lib.Transition

namespace ArtemisNative

variable {Tid : Type} [DecidableEq Tid]

/-! ### The environment -/

/-- What the environment answers in one step. -/
structure Answer where
  /-- `Semaphore.acquire` throws `InterruptedException` -/
  interrupted : Bool := false
  /-- `Semaphore.tryAcquire` gives up, after its time or on an exception -/
  timedOut : Bool := false
  /-- the return values of `io_submit` and `ringio_get_events` -/
  ioSubmit : ℤ := 1
  events : ℤ := 0
  /-- `fdatasync` returns `0` -/
  fdatasync : Bool := true
  /-- a call into Java is not entered, and a call throws -/
  skipped : Bool := false
  throws : Bool := false
  deriving DecidableEq, Repr

def EINTR : ℤ := 4

/-- Calls a thread may make. -/
inductive Method
  | submit (a : Submission)
  | poll
  | pollInto (callbacks : List (Option ℕ)) (min max : ℤ)
  | close
  deriving DecidableEq, Repr

inductive Label (Tid : Type)
  | call (t : Tid) (m : Method)
  | step (t : Tid) (ans : Answer)
  | complete (k : ℕ) (res : ℤ)
  | redeliver (k : ℕ)
  | setForceSyscall (value : Bool)
  | closeDumbHandlers
  deriving DecidableEq, Repr

/-! ### submitWrite and submitRead -/

def submitStep (cfg : Config) (s : State Tid) (t : Tid) (ans : Answer) :
    SubmitPc → Option (State Tid)
  | .acquire a =>
    if cfg.useSemaphore then
      if ans.interrupted then
        some (s.goto t (.idle (.threw .interrupted)))
      else if 0 < s.ioSpace then
        some ({ s with ioSpace := s.ioSpace - 1 }.goto t (.submit (.getIOCB a)))
      else
        none
    else
      some (s.goto t (.submit (.getIOCB a)))
  | .getIOCB a =>
    match s.pool.getIOCB with
    | none => some (s.goto t (.idle (.threw .noSpace)))
    | some (b, pool) => some ((s.handOut b pool).goto t (.submit (.prep a b)))
  | .prep a b =>
    let (data, refs) := s.refs.new a.callback
    some (({ s with refs := refs }.setIocb b (a.prep data)).goto t (.submit (.ioSubmit a b)))
  | .ioSubmit a b =>
    if ans.ioSubmit < 0 then
      some (s.goto t (.submit (.deleteRef b (-ans.ioSubmit))))
    else if 0 ≤ (s.iocb b).aio_fildes then
      some ((s.accept b (.user a)).goto t (.idle .returned))
    else
      none
  | .deleteRef b errno =>
    some ((s.deleteRef (s.iocb b).data).goto t (.submit (.putIOCB b errno)))
  | .putIOCB b errno => some ((s.putBack b).goto t (.idle (.threw (.submitting errno))))

/-! ### poll() and blockedPoll -/

/-- One step inside the loop over the events of a batch. -/
def eventStep (cfg : Config) (s : State Tid) (t : Tid) (ans : Answer) (f : Frame) :
    Stage → Option (State Tid)
  | .test =>
    if f.i < f.result then
      if (s.iocb (s.events f.i).obj).aio_fildes = s.dumbWriteHandler then
        some (s.goto t (.blocked (.event f .stop)))
      else
        some (s.goto t (.blocked (.event f .sync)))
    else
      some (s.goto t (.blocked (.getEvents f)))
  | .stop =>
    -- `putIOCB`, `running = 0`, `break`: the rest of the batch is not looked at
    let rest := (List.range' (f.i + 1) (f.result - (f.i + 1))).map fun j =>
      Obs.dropped (s.events j).op
    some (((s.putBack (s.events f.i).obj).record (.stopped (s.events f.i).op :: rest)).goto t
      (.blocked (.unlock (if f.pending then .threw .callback else .returned))))
  | .sync =>
    let fd := (s.iocb (s.events f.i).obj).aio_fildes
    if cfg.useFdatasync ∧ f.lastFile ≠ fd then
      some ((s.record [.synced fd ans.fdatasync]).goto t
        (.blocked (.event { f with lastFile := fd } .onError)))
    else
      some (s.goto t (.blocked (.event f .onError)))
  | .onError =>
    let ev := s.events f.i
    if ev.res < 0 then
      -- `NewStringUTF` makes a local reference whether or not it is used
      let f := { f with localRefs := f.localRefs + 1 }
      if (s.iocb ev.obj).data = .null then
        some (s.goto t (.blocked (.event f .take)))
      else if ans.skipped then
        if f.pending then some (s.goto t (.blocked (.event f .take))) else none
      else
        some ((s.record [.onError ev.op (s.refs.deref (s.iocb ev.obj).data) (-ev.res)]).goto t
          (.blocked (.event { f with pending := f.pending || ans.throws } .take)))
    else
      some (s.goto t (.blocked (.event f .take)))
  | .take =>
    let b := (s.events f.i).obj
    let obj := (s.iocb b).data
    let s := s.setIocb b { s.iocb b with data := .null }
    if obj = .null then
      some (s.goto t (.blocked (.event f .warn)))
    else
      some (s.goto t (.blocked (.event f (.put obj))))
  | .put obj =>
    some (((s.putBack (s.events f.i).obj).record [.putBack (s.events f.i).op]).goto t
      (.blocked (.event f (.done obj))))
  | .done obj =>
    if ans.skipped then
      if f.pending then some (s.goto t (.blocked (.event f (.deleteRef obj)))) else none
    else
      some ((s.record [.done (s.events f.i).op (s.refs.deref obj)]).goto t
        (.blocked (.event f (.inDone obj))))
  | .inDone obj =>
    if ans.throws then
      some (s.goto t (.blocked (.event { f with pending := true } (.deleteRef obj))))
    else
      some ((s.record [.returned (s.events f.i).op]).goto t
        (.blocked (.event f (.release obj))))
  | .release obj =>
    if cfg.useSemaphore then
      some (({ s with ioSpace := s.ioSpace + 1 }.record [.released (s.events f.i).op]).goto t
        (.blocked (.event f (.deleteRef obj))))
    else
      some (s.goto t (.blocked (.event f (.deleteRef obj))))
  | .deleteRef obj =>
    some ((s.deleteRef obj).goto t (.blocked (.event { f with i := f.i + 1 } .test)))
  | .warn =>
    some (({ s with forceSysCall := true }.record [.warned (s.events f.i).op]).goto t
      (.blocked (.event { f with i := f.i + 1 } .test)))

def blockedStep (cfg : Config) (s : State Tid) (t : Tid) (ans : Answer) :
    BlockedPc → Option (State Tid)
  | .lock =>
    if s.pollLock = none then
      some ({ s with pollLock := some t }.goto t (.blocked (.getEvents ⟨0, 0, -1, false, 0⟩)))
    else
      none
  | .getEvents f =>
    if s.mayReturn cfg.queueSize ans.events then
      if ans.events = -EINTR then
        some s
      else if ans.events < 0 then
        some (s.goto t (.blocked (.unlock (.threw (.polling (-ans.events))))))
      else
        some ((s.getEvents ans.events.toNat .reaped).goto t (.blocked (.event
          { f with i := 0, result := ans.events.toNat, lastFile := -1 } .test)))
    else
      none
  | .event f st => eventStep cfg s t ans f st
  | .unlock o => some ({ s with pollLock := none }.goto t (.idle o))

/-! ### poll(callbacks, min, max) -/

def pollStep (cfg : Config) (s : State Tid) (t : Tid) (ans : Answer) :
    PollPc → Option (State Tid)
  | .getEvents callbacks _ max =>
    if s.mayReturn max ans.events then
      if ans.events < 0 then
        some (s.goto t (.poll (.release ans.events callbacks false)))
      else
        some ((s.getEvents ans.events.toNat .polled).goto t
          (.poll (.event ⟨0, ans.events.toNat, callbacks, false⟩ .onError)))
    else
      none
  | .event f .onError =>
    let ev := s.events f.i
    if f.i < f.result then
      if ev.res < 0 ∧ (s.iocb ev.obj).data ≠ .null ∧ (s.iocb ev.obj).data ≠ .stop then
        if ans.skipped then
          if f.pending then some (s.goto t (.poll (.event f .store))) else none
        else
          some ((s.record [.onError ev.op (s.refs.deref (s.iocb ev.obj).data) (-ev.res)]).goto t
            (.poll (.event { f with pending := f.pending || ans.throws } .store)))
      else
        some (s.goto t (.poll (.event f .store)))
    else
      some (s.goto t (.poll (.release f.result f.callbacks f.pending)))
  | .event f .store =>
    let ev := s.events f.i
    if (s.iocb ev.obj).data ≠ .null ∧ (s.iocb ev.obj).data ≠ .stop then
      let callback := s.refs.deref (s.iocb ev.obj).data
      if f.i < f.callbacks.length then
        some ((s.record [.stored ev.op callback f.i]).goto t
          (.poll (.event (f.store callback) .deleteRef)))
      else
        some (s.goto t (.poll (.event { f with pending := true } .deleteRef)))
    else
      some (s.goto t (.poll (.event f .put)))
  | .event f .deleteRef =>
    some ((s.deleteRef (s.iocb (s.events f.i).obj).data).goto t (.poll (.event f .put)))
  | .event f .put =>
    some (((s.putBack (s.events f.i).obj).record [.putBack (s.events f.i).op]).goto t
      (.poll (.event { f with i := f.i + 1 } .onError)))
  | .release n callbacks pending =>
    if pending then
      some (s.goto t (.idle (.threw .callback)))
    else if cfg.useSemaphore ∧ 0 < n then
      some (({ s with ioSpace := s.ioSpace + n.toNat }.record [.releasedAll n.toNat]).goto t
        (.idle (.polled n callbacks)))
    else
      some (s.goto t (.idle (.polled n callbacks)))

/-! ### close and deleteContext -/

def closeStep (cfg : Config) (s : State Tid) (t : Tid) (ans : Answer) :
    ClosePc → Option (State Tid)
  | .tryAcquire =>
    if cfg.useSemaphore then
      if ans.timedOut then
        some (s.goto t (.close .getIOCB))
      else if cfg.queueSize ≤ s.ioSpace then
        some ({ s with ioSpace := s.ioSpace - cfg.queueSize, drained := true }.goto t
          (.close .getIOCB))
      else
        none
    else
      some (s.goto t (.close .getIOCB))
  | .getIOCB =>
    match s.pool.getIOCB with
    | none => some (s.goto t (.idle (.threw .noSpace)))
    | some (b, pool) => some ((s.handOut b pool).goto t (.close (.prep b)))
  | .prep b =>
    some ((s.setIocb b (sentinel s.dumbWriteHandler)).goto t (.close (.ioSubmit b)))
  | .ioSubmit b =>
    if ans.ioSubmit < 0 then
      some (s.goto t (.close (.putIOCB b (-ans.ioSubmit))))
    else if 0 ≤ (s.iocb b).aio_fildes then
      some ((s.accept b (.stop (s.iocb b).aio_fildes)).goto t (.close .lock))
    else
      none
  | .putIOCB b errno => some ((s.putBack b).goto t (.idle (.threw (.submitting errno))))
  | .lock =>
    if s.pollLock = none then
      some ({ s with pollLock := some t }.goto t (.close .unlock))
    else
      none
  | .unlock => some ({ s with pollLock := none }.goto t (.close .getEvents))
  | .getEvents =>
    if s.mayReturn 1 ans.events then
      if ans.events < 0 then
        some (s.goto t (.close .queueRelease))
      else
        some ((s.getEvents ans.events.toNat .discarded).goto t
          (.close (.put 0 ans.events.toNat)))
    else
      none
  | .put i result =>
    if i < result then
      some ((s.putBack (s.events i).obj).goto t (.close (.put (i + 1) result)))
    else
      some (s.goto t (.close .queueRelease))
  | .queueRelease =>
    -- `io_queue_release` cancels or waits for what is in flight
    some ({ s with inflight := [], ring := [] }.goto t (.close .destroy))
  | .destroy =>
    some ({ s with destroyed := s.destroyed ++ s.pool.iocbDestroy }.goto t (.close .free))
  | .free => some ({ s with freed := true }.goto t (.idle .returned))

/-! ### The system -/

/-- A thread outside all methods calls one; `closed` is looked at here, except
by `poll(callbacks, ..)`. -/
def callStep (s : State Tid) (t : Tid) : Method → State Tid
  | .submit a =>
    if s.closed then s.goto t (.idle (.threw .closed)) else s.goto t (.submit (.acquire a))
  | .poll =>
    if s.closed then s.goto t (.idle .returned) else s.goto t (.blocked .lock)
  | .pollInto callbacks min max => s.goto t (.poll (.getEvents callbacks min max))
  | .close =>
    if s.closed then s.goto t (.idle .returned)
    else { s with closed := true }.goto t (.close .tryAcquire)

/-- The step of thread `t` from program counter `p`. -/
def threadStep (cfg : Config) (s : State Tid) (t : Tid) (ans : Answer) : Pc → Option (State Tid)
  | .idle _ => none
  | .submit p => submitStep cfg s t ans p
  | .blocked p => blockedStep cfg s t ans p
  | .poll p => pollStep cfg s t ans p
  | .close p => closeStep cfg s t ans p

/-- The kernel completes the `k`-th request in flight. -/
def completeStep (s : State Tid) (k : ℕ) (res : ℤ) : Option (State Tid) :=
  match s.inflight[k]? with
  | none => none
  | some r =>
    if -2147483648 < res ∧ res < 2147483648 then
      some (s.complete k ⟨r.obj, res, r.op⟩)
    else
      none

def next (cfg : Config) (s : State Tid) : Label Tid → Option (State Tid)
  | .call t m =>
    match s.pc t with
    | .idle _ => some (callStep s t m)
    | _ => none
  | .step t ans => threadStep cfg s t ans (s.pc t)
  | .complete k res => completeStep s k res
  | .redeliver k => (s.delivered[k]?).map fun ev => { s with ring := s.ring ++ [ev] }
  | .setForceSyscall value => some { s with forceSysCall := value }
  | .closeDumbHandlers => some { s with dumbWriteHandler := 0 }

/-! ### Small runs -/

/-- A state to start examples from. -/
def State.sample (cfg : Config) : State Tid :=
  .initial cfg ⟨fun _ => ⟨.pread, 0, 0, 0, .null⟩, fun _ => ⟨0, 0, 0⟩,
    .empty, false, 3⟩

/-- The call and the four steps of an undisturbed submission. -/
def submits (t : Tid) (a : Submission) : List (Label Tid) :=
  [.call t (.submit a), .step t {}, .step t {}, .step t {}, .step t {}]

/-- `n` steps of thread `t`. -/
def steps (t : Tid) (n : ℕ) : List (Label Tid) := List.replicate n (.step t {})

end ArtemisNative
