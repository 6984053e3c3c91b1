/-
ArtemisNative/Moves.lean

What a step of a thread can do, said once.

`Moves cfg s t ans p s'` is the relational reading of the step functions: one
constructor for each way through them, with the guards as hypotheses and the
next state written out.  `threadStep_moves` is the inversion lemma; invariants
are proved by cases on `Moves`, so that no proof takes the step functions apart
again.
-/
import ArtemisNative.Methods

namespace ArtemisNative

variable {Tid : Type} [DecidableEq Tid]

/-! ### The moves of a thread -/

inductive SubmitMoves (cfg : Config) (s : State Tid) (t : Tid) (ans : Answer) :
    SubmitPc → State Tid → Prop
  | interrupted (a) (hsem : cfg.useSemaphore = true) (hint : ans.interrupted = true) :
      SubmitMoves cfg s t ans (.acquire a) (s.goto t (.idle (.threw .interrupted)))
  | acquired (a) (hsem : cfg.useSemaphore = true) (hint : ans.interrupted = false)
      (hpos : 0 < s.ioSpace) :
      SubmitMoves cfg s t ans (.acquire a)
        ({ s with ioSpace := s.ioSpace - 1 }.goto t (.submit (.getIOCB a)))
  | unlimited (a) (hsem : cfg.useSemaphore = false) :
      SubmitMoves cfg s t ans (.acquire a) (s.goto t (.submit (.getIOCB a)))
  | noSpace (a) (hg : s.pool.getIOCB = none) :
      SubmitMoves cfg s t ans (.getIOCB a) (s.goto t (.idle (.threw .noSpace)))
  | gotIOCB (a b pool) (hg : s.pool.getIOCB = some (b, pool)) :
      SubmitMoves cfg s t ans (.getIOCB a) ((s.handOut b pool).goto t (.submit (.prep a b)))
  | prepared (a b) :
      SubmitMoves cfg s t ans (.prep a b)
        (({ s with refs := (s.refs.new a.callback).2 }.setIocb b
          (a.prep (s.refs.new a.callback).1)).goto t (.submit (.ioSubmit a b)))
  | rejected (a b) (hneg : ans.ioSubmit < 0) :
      SubmitMoves cfg s t ans (.ioSubmit a b)
        (s.goto t (.submit (.deleteRef b (-ans.ioSubmit))))
  | accepted (a b) (hpos : 0 ≤ ans.ioSubmit) (hfd : 0 ≤ (s.iocb b).aio_fildes) :
      SubmitMoves cfg s t ans (.ioSubmit a b) ((s.accept b (.user a)).goto t (.idle .returned))
  | refDeleted (b errno) :
      SubmitMoves cfg s t ans (.deleteRef b errno)
        ((s.deleteRef (s.iocb b).data).goto t (.submit (.putIOCB b errno)))
  | undone (b errno) :
      SubmitMoves cfg s t ans (.putIOCB b errno)
        ((s.putBack b).goto t (.idle (.threw (.submitting errno))))

/-- The observations of `blockedPoll` when it takes the event at `f.i` for the
sentinel. -/
def stopObs (s : State Tid) (f : Frame) : List Obs :=
  .stopped (s.events f.i).op ::
    (List.range' (f.i + 1) (f.result - (f.i + 1))).map fun j => Obs.dropped (s.events j).op

inductive EventMoves (cfg : Config) (s : State Tid) (t : Tid) (ans : Answer) (f : Frame) :
    Stage → State Tid → Prop
  | isStop (hlt : f.i < f.result)
      (hfd : (s.iocb (s.events f.i).obj).aio_fildes = s.dumbWriteHandler) :
      EventMoves cfg s t ans f .test (s.goto t (.blocked (.event f .stop)))
  | isEvent (hlt : f.i < f.result)
      (hfd : (s.iocb (s.events f.i).obj).aio_fildes ≠ s.dumbWriteHandler) :
      EventMoves cfg s t ans f .test (s.goto t (.blocked (.event f .sync)))
  | batchEnd (hle : f.result ≤ f.i) :
      EventMoves cfg s t ans f .test (s.goto t (.blocked (.getEvents f)))
  | stopped :
      EventMoves cfg s t ans f .stop
        (((s.putBack (s.events f.i).obj).record (stopObs s f)).goto t
          (.blocked (.unlock (if f.pending then .threw .callback else .returned))))
  | synced (hsync : cfg.useFdatasync = true)
      (hfd : f.lastFile ≠ (s.iocb (s.events f.i).obj).aio_fildes) :
      EventMoves cfg s t ans f .sync
        ((s.record [.synced (s.iocb (s.events f.i).obj).aio_fildes ans.fdatasync]).goto t
          (.blocked (.event { f with lastFile := (s.iocb (s.events f.i).obj).aio_fildes }
            .onError)))
  | notSynced (hsync : cfg.useFdatasync = true →
        f.lastFile = (s.iocb (s.events f.i).obj).aio_fildes) :
      EventMoves cfg s t ans f .sync (s.goto t (.blocked (.event f .onError)))
  | noError (hres : 0 ≤ (s.events f.i).res) :
      EventMoves cfg s t ans f .onError (s.goto t (.blocked (.event f .take)))
  | errorNull (hres : (s.events f.i).res < 0)
      (hnull : (s.iocb (s.events f.i).obj).data = .null) :
      EventMoves cfg s t ans f .onError
        (s.goto t (.blocked (.event { f with localRefs := f.localRefs + 1 } .take)))
  | errorSkipped (hres : (s.events f.i).res < 0)
      (hnull : (s.iocb (s.events f.i).obj).data ≠ .null) (hpend : f.pending = true) :
      EventMoves cfg s t ans f .onError
        (s.goto t (.blocked (.event { f with localRefs := f.localRefs + 1 } .take)))
  | errorCalled (hres : (s.events f.i).res < 0)
      (hnull : (s.iocb (s.events f.i).obj).data ≠ .null) :
      EventMoves cfg s t ans f .onError
        ((s.record [.onError (s.events f.i).op
            (s.refs.deref (s.iocb (s.events f.i).obj).data) (-(s.events f.i).res)]).goto t
          (.blocked (.event
            { f with localRefs := f.localRefs + 1, pending := f.pending || ans.throws } .take)))
  | takenNull (hnull : (s.iocb (s.events f.i).obj).data = .null) :
      EventMoves cfg s t ans f .take
        ((s.setIocb (s.events f.i).obj { s.iocb (s.events f.i).obj with data := .null }).goto t
          (.blocked (.event f .warn)))
  | taken (hnull : (s.iocb (s.events f.i).obj).data ≠ .null) :
      EventMoves cfg s t ans f .take
        ((s.setIocb (s.events f.i).obj { s.iocb (s.events f.i).obj with data := .null }).goto t
          (.blocked (.event f (.put (s.iocb (s.events f.i).obj).data))))
  | put (obj) :
      EventMoves cfg s t ans f (.put obj)
        (((s.putBack (s.events f.i).obj).record [.putBack (s.events f.i).op]).goto t
          (.blocked (.event f (.done obj))))
  | doneSkipped (obj) (hpend : f.pending = true) :
      EventMoves cfg s t ans f (.done obj) (s.goto t (.blocked (.event f (.deleteRef obj))))
  | doneCalled (obj) :
      EventMoves cfg s t ans f (.done obj)
        ((s.record [.done (s.events f.i).op (s.refs.deref obj)]).goto t
          (.blocked (.event f (.inDone obj))))
  | doneThrew (obj) (hthrow : ans.throws = true) :
      EventMoves cfg s t ans f (.inDone obj)
        (s.goto t (.blocked (.event { f with pending := true } (.deleteRef obj))))
  | doneReturned (obj) (hthrow : ans.throws = false) :
      EventMoves cfg s t ans f (.inDone obj)
        ((s.record [.returned (s.events f.i).op]).goto t
          (.blocked (.event f (.release obj))))
  | released (obj) (hsem : cfg.useSemaphore = true) :
      EventMoves cfg s t ans f (.release obj)
        (({ s with ioSpace := s.ioSpace + 1 }.record [.released (s.events f.i).op]).goto t
          (.blocked (.event f (.deleteRef obj))))
  | notReleased (obj) (hsem : cfg.useSemaphore = false) :
      EventMoves cfg s t ans f (.release obj)
        (s.goto t (.blocked (.event f (.deleteRef obj))))
  | refDeleted (obj) :
      EventMoves cfg s t ans f (.deleteRef obj)
        ((s.deleteRef obj).goto t (.blocked (.event { f with i := f.i + 1 } .test)))
  | warned :
      EventMoves cfg s t ans f .warn
        (({ s with forceSysCall := true }.record [.warned (s.events f.i).op]).goto t
          (.blocked (.event { f with i := f.i + 1 } .test)))

inductive BlockedMoves (cfg : Config) (s : State Tid) (t : Tid) (ans : Answer) :
    BlockedPc → State Tid → Prop
  | locked (hlock : s.pollLock = none) :
      BlockedMoves cfg s t ans .lock
        ({ s with pollLock := some t }.goto t (.blocked (.getEvents ⟨0, 0, -1, false, 0⟩)))
  | readInterrupted (f) (hev : ans.events = -EINTR) : BlockedMoves cfg s t ans (.getEvents f) s
  | readFailed (f) (hev : ans.events < 0) :
      BlockedMoves cfg s t ans (.getEvents f)
        (s.goto t (.blocked (.unlock (.threw (.polling (-ans.events))))))
  | read (f) (k : ℕ) (hmax : k ≤ cfg.queueSize) (hk : k ≤ s.ring.length) :
      BlockedMoves cfg s t ans (.getEvents f)
        ((s.getEvents k .reaped).goto t
          (.blocked (.event { f with i := 0, result := k, lastFile := -1 } .test)))
  | event (f st s') (h : EventMoves cfg s t ans f st s') :
      BlockedMoves cfg s t ans (.event f st) s'
  | unlocked (o) :
      BlockedMoves cfg s t ans (.unlock o) ({ s with pollLock := none }.goto t (.idle o))

inductive PollMoves (cfg : Config) (s : State Tid) (t : Tid) (ans : Answer) :
    PollPc → State Tid → Prop
  | readFailed (callbacks min max) (hev : ans.events < 0) :
      PollMoves cfg s t ans (.getEvents callbacks min max)
        (s.goto t (.poll (.release ans.events callbacks false)))
  | read (callbacks min) (max : ℤ) (k : ℕ) (hmax : k ≤ max) (hk : k ≤ s.ring.length) :
      PollMoves cfg s t ans (.getEvents callbacks min max)
        ((s.getEvents k .polled).goto t (.poll (.event ⟨0, k, callbacks, false⟩ .onError)))
  | batchEnd (f) (hle : f.result ≤ f.i) :
      PollMoves cfg s t ans (.event f .onError)
        (s.goto t (.poll (.release f.result f.callbacks f.pending)))
  | noError (f) (hlt : f.i < f.result)
      (h : ¬((s.events f.i).res < 0 ∧ (s.iocb (s.events f.i).obj).data ≠ .null ∧
        (s.iocb (s.events f.i).obj).data ≠ .stop)) :
      PollMoves cfg s t ans (.event f .onError) (s.goto t (.poll (.event f .store)))
  | errorSkipped (f) (hlt : f.i < f.result) (hres : (s.events f.i).res < 0)
      (hpend : f.pending = true) :
      PollMoves cfg s t ans (.event f .onError) (s.goto t (.poll (.event f .store)))
  | errorCalled (f) (hlt : f.i < f.result) (hres : (s.events f.i).res < 0)
      (hnull : (s.iocb (s.events f.i).obj).data ≠ .null)
      (hstop : (s.iocb (s.events f.i).obj).data ≠ .stop) :
      PollMoves cfg s t ans (.event f .onError)
        ((s.record [.onError (s.events f.i).op
            (s.refs.deref (s.iocb (s.events f.i).obj).data) (-(s.events f.i).res)]).goto t
          (.poll (.event { f with pending := f.pending || ans.throws } .store)))
  | stored (f) (hnull : (s.iocb (s.events f.i).obj).data ≠ .null)
      (hstop : (s.iocb (s.events f.i).obj).data ≠ .stop) (hlen : f.i < f.callbacks.length) :
      PollMoves cfg s t ans (.event f .store)
        ((s.record [.stored (s.events f.i).op
            (s.refs.deref (s.iocb (s.events f.i).obj).data) f.i]).goto t
          (.poll (.event (f.store (s.refs.deref (s.iocb (s.events f.i).obj).data)) .deleteRef)))
  | storeThrew (f) (hnull : (s.iocb (s.events f.i).obj).data ≠ .null)
      (hlen : f.callbacks.length ≤ f.i) :
      PollMoves cfg s t ans (.event f .store)
        (s.goto t (.poll (.event { f with pending := true } .deleteRef)))
  | notStored (f) (h : (s.iocb (s.events f.i).obj).data = .null ∨
        (s.iocb (s.events f.i).obj).data = .stop) :
      PollMoves cfg s t ans (.event f .store) (s.goto t (.poll (.event f .put)))
  | refDeleted (f) :
      PollMoves cfg s t ans (.event f .deleteRef)
        ((s.deleteRef (s.iocb (s.events f.i).obj).data).goto t (.poll (.event f .put)))
  | put (f) :
      PollMoves cfg s t ans (.event f .put)
        (((s.putBack (s.events f.i).obj).record [.putBack (s.events f.i).op]).goto t
          (.poll (.event { f with i := f.i + 1 } .onError)))
  | threw (n callbacks) :
      PollMoves cfg s t ans (.release n callbacks true) (s.goto t (.idle (.threw .callback)))
  | released (n callbacks) (hsem : cfg.useSemaphore = true) (hn : 0 < n) :
      PollMoves cfg s t ans (.release n callbacks false)
        (({ s with ioSpace := s.ioSpace + n.toNat }.record [.releasedAll n.toNat]).goto t
          (.idle (.polled n callbacks)))
  | notReleased (n callbacks) (hn : ¬(cfg.useSemaphore = true ∧ 0 < n)) :
      PollMoves cfg s t ans (.release n callbacks false)
        (s.goto t (.idle (.polled n callbacks)))

inductive CloseMoves (cfg : Config) (s : State Tid) (t : Tid) (ans : Answer) :
    ClosePc → State Tid → Prop
  | timedOut (hsem : cfg.useSemaphore = true) (htime : ans.timedOut = true) :
      CloseMoves cfg s t ans .tryAcquire (s.goto t (.close .getIOCB))
  | drained (hsem : cfg.useSemaphore = true) (htime : ans.timedOut = false)
      (hall : cfg.queueSize ≤ s.ioSpace) :
      CloseMoves cfg s t ans .tryAcquire
        ({ s with ioSpace := s.ioSpace - cfg.queueSize, drained := true }.goto t
          (.close .getIOCB))
  | unlimited (hsem : cfg.useSemaphore = false) :
      CloseMoves cfg s t ans .tryAcquire (s.goto t (.close .getIOCB))
  | noSpace (hg : s.pool.getIOCB = none) :
      CloseMoves cfg s t ans .getIOCB (s.goto t (.idle (.threw .noSpace)))
  | gotIOCB (b pool) (hg : s.pool.getIOCB = some (b, pool)) :
      CloseMoves cfg s t ans .getIOCB ((s.handOut b pool).goto t (.close (.prep b)))
  | prepared (b) :
      CloseMoves cfg s t ans (.prep b)
        ((s.setIocb b (sentinel s.dumbWriteHandler)).goto t (.close (.ioSubmit b)))
  | rejected (b) (hneg : ans.ioSubmit < 0) :
      CloseMoves cfg s t ans (.ioSubmit b) (s.goto t (.close (.putIOCB b (-ans.ioSubmit))))
  | accepted (b) (hpos : 0 ≤ ans.ioSubmit) (hfd : 0 ≤ (s.iocb b).aio_fildes) :
      CloseMoves cfg s t ans (.ioSubmit b)
        ((s.accept b (.stop (s.iocb b).aio_fildes)).goto t (.close .lock))
  | undone (b errno) :
      CloseMoves cfg s t ans (.putIOCB b errno)
        ((s.putBack b).goto t (.idle (.threw (.submitting errno))))
  | locked (hlock : s.pollLock = none) :
      CloseMoves cfg s t ans .lock ({ s with pollLock := some t }.goto t (.close .unlock))
  | unlocked :
      CloseMoves cfg s t ans .unlock ({ s with pollLock := none }.goto t (.close .getEvents))
  | readFailed (hev : ans.events < 0) :
      CloseMoves cfg s t ans .getEvents (s.goto t (.close .queueRelease))
  | read (k : ℕ) (hmax : k ≤ 1) (hk : k ≤ s.ring.length) :
      CloseMoves cfg s t ans .getEvents
        ((s.getEvents k .discarded).goto t (.close (.put 0 k)))
  | put (i result) (hlt : i < result) :
      CloseMoves cfg s t ans (.put i result)
        ((s.putBack (s.events i).obj).goto t (.close (.put (i + 1) result)))
  | batchEnd (i result) (hle : result ≤ i) :
      CloseMoves cfg s t ans (.put i result) (s.goto t (.close .queueRelease))
  | queueReleased :
      CloseMoves cfg s t ans .queueRelease
        ({ s with inflight := [], ring := [] }.goto t (.close .destroy))
  | destroyed :
      CloseMoves cfg s t ans .destroy
        ({ s with destroyed := s.destroyed ++ s.pool.iocbDestroy }.goto t (.close .free))
  | freed : CloseMoves cfg s t ans .free ({ s with freed := true }.goto t (.idle .returned))

inductive CallMoves (s : State Tid) (t : Tid) : Method → State Tid → Prop
  | refused (a) (hcl : s.closed = true) :
      CallMoves s t (.submit a) (s.goto t (.idle (.threw .closed)))
  | submit (a) (hcl : s.closed = false) :
      CallMoves s t (.submit a) (s.goto t (.submit (.acquire a)))
  | pollClosed (hcl : s.closed = true) : CallMoves s t .poll (s.goto t (.idle .returned))
  | poll (hcl : s.closed = false) : CallMoves s t .poll (s.goto t (.blocked .lock))
  | pollInto (callbacks min max) :
      CallMoves s t (.pollInto callbacks min max) (s.goto t (.poll (.getEvents callbacks min max)))
  | closeAgain (hcl : s.closed = true) : CallMoves s t .close (s.goto t (.idle .returned))
  | close (hcl : s.closed = false) :
      CallMoves s t .close ({ s with closed := true }.goto t (.close .tryAcquire))

/-! ### Inversion of the step functions -/

variable {cfg : Config} {s s' : State Tid} {t : Tid} {ans : Answer} {l : Label Tid}

theorem submitStep_moves {p : SubmitPc} (hn : submitStep cfg s t ans p = some s') :
    SubmitMoves cfg s t ans p s' := by
  cases p with
  | acquire a =>
    simp only [submitStep] at hn
    split at hn
    · rename_i hsem
      split at hn
      · rename_i hint
        obtain rfl := Option.some.inj hn
        exact .interrupted a hsem hint
      · rename_i hint
        split at hn
        · rename_i hpos
          obtain rfl := Option.some.inj hn
          exact .acquired a hsem (by simpa using hint) hpos
        · cases hn
    · rename_i hsem
      obtain rfl := Option.some.inj hn
      exact .unlimited a (by simpa using hsem)
  | getIOCB a =>
    simp only [submitStep] at hn
    split at hn
    · rename_i hg
      obtain rfl := Option.some.inj hn
      exact .noSpace a hg
    · rename_i b pool hg
      obtain rfl := Option.some.inj hn
      exact .gotIOCB a b pool hg
  | prep a b =>
    obtain rfl := Option.some.inj hn
    exact .prepared a b
  | ioSubmit a b =>
    simp only [submitStep] at hn
    split at hn
    · rename_i hneg
      obtain rfl := Option.some.inj hn
      exact .rejected a b hneg
    · rename_i hpos
      split at hn
      · rename_i hfd
        obtain rfl := Option.some.inj hn
        exact .accepted a b (by omega) hfd
      · cases hn
  | deleteRef b errno =>
    obtain rfl := Option.some.inj hn
    exact .refDeleted b errno
  | putIOCB b errno =>
    obtain rfl := Option.some.inj hn
    exact .undone b errno

theorem eventStep_moves {f : Frame} {st : Stage} (hn : eventStep cfg s t ans f st = some s') :
    EventMoves cfg s t ans f st s' := by
  cases st with
  | test =>
    simp only [eventStep] at hn
    split at hn
    · rename_i hlt
      split at hn
      · rename_i hfd
        obtain rfl := Option.some.inj hn
        exact .isStop hlt hfd
      · rename_i hfd
        obtain rfl := Option.some.inj hn
        exact .isEvent hlt hfd
    · rename_i hle
      obtain rfl := Option.some.inj hn
      exact .batchEnd (by omega)
  | stop =>
    obtain rfl := Option.some.inj hn
    exact .stopped
  | sync =>
    simp only [eventStep] at hn
    split at hn
    · rename_i h
      obtain rfl := Option.some.inj hn
      exact .synced h.1 h.2
    · rename_i h
      obtain rfl := Option.some.inj hn
      exact .notSynced fun hsync => not_not.mp fun hne => h ⟨hsync, hne⟩
  | onError =>
    simp only [eventStep] at hn
    split at hn
    · rename_i hres
      split at hn
      · rename_i hnull
        obtain rfl := Option.some.inj hn
        exact .errorNull hres hnull
      · rename_i hnull
        split at hn
        · split at hn
          · rename_i hpend
            obtain rfl := Option.some.inj hn
            exact .errorSkipped hres hnull hpend
          · cases hn
        · obtain rfl := Option.some.inj hn
          exact .errorCalled hres hnull
    · rename_i hres
      obtain rfl := Option.some.inj hn
      exact .noError (by omega)
  | take =>
    simp only [eventStep] at hn
    split at hn
    · rename_i hnull
      obtain rfl := Option.some.inj hn
      exact .takenNull hnull
    · rename_i hnull
      obtain rfl := Option.some.inj hn
      exact .taken hnull
  | put obj =>
    obtain rfl := Option.some.inj hn
    exact .put obj
  | done obj =>
    simp only [eventStep] at hn
    split at hn
    · split at hn
      · rename_i hpend
        obtain rfl := Option.some.inj hn
        exact .doneSkipped obj hpend
      · cases hn
    · obtain rfl := Option.some.inj hn
      exact .doneCalled obj
  | inDone obj =>
    simp only [eventStep] at hn
    split at hn
    · rename_i hthrow
      obtain rfl := Option.some.inj hn
      exact .doneThrew obj hthrow
    · rename_i hthrow
      obtain rfl := Option.some.inj hn
      exact .doneReturned obj (by simpa using hthrow)
  | release obj =>
    simp only [eventStep] at hn
    split at hn
    · rename_i hsem
      obtain rfl := Option.some.inj hn
      exact .released obj hsem
    · rename_i hsem
      obtain rfl := Option.some.inj hn
      exact .notReleased obj (by simpa using hsem)
  | deleteRef obj =>
    obtain rfl := Option.some.inj hn
    exact .refDeleted obj
  | warn =>
    obtain rfl := Option.some.inj hn
    exact .warned

theorem blockedStep_moves {p : BlockedPc} (hn : blockedStep cfg s t ans p = some s') :
    BlockedMoves cfg s t ans p s' := by
  cases p with
  | lock =>
    simp only [blockedStep] at hn
    split at hn
    · rename_i hlock
      obtain rfl := Option.some.inj hn
      exact .locked hlock
    · cases hn
  | getEvents f =>
    simp only [blockedStep] at hn
    split at hn
    · rename_i hret
      split at hn
      · rename_i hev
        obtain rfl := Option.some.inj hn
        exact .readInterrupted f hev
      · split at hn
        · rename_i hev
          obtain rfl := Option.some.inj hn
          exact .readFailed f hev
        · rename_i hev
          obtain ⟨hmax, hk⟩ := hret.resolve_left hev
          obtain rfl := Option.some.inj hn
          exact .read f _ (by omega) hk
    · cases hn
  | event f st => exact .event f st s' (eventStep_moves hn)
  | unlock o =>
    obtain rfl := Option.some.inj hn
    exact .unlocked o

theorem pollStep_moves {p : PollPc} (hn : pollStep cfg s t ans p = some s') :
    PollMoves cfg s t ans p s' := by
  cases p with
  | getEvents callbacks min max =>
    simp only [pollStep] at hn
    split at hn
    · rename_i hret
      split at hn
      · rename_i hev
        obtain rfl := Option.some.inj hn
        exact .readFailed callbacks min max hev
      · rename_i hev
        obtain ⟨hmax, hk⟩ := hret.resolve_left hev
        obtain rfl := Option.some.inj hn
        exact .read callbacks min max _ (by omega) hk
    · cases hn
  | event f st =>
    cases st with
    | onError =>
      simp only [pollStep] at hn
      split at hn
      · rename_i hlt
        split at hn
        · rename_i h
          split at hn
          · split at hn
            · rename_i hpend
              obtain rfl := Option.some.inj hn
              exact .errorSkipped f hlt h.1 hpend
            · cases hn
          · obtain rfl := Option.some.inj hn
            exact .errorCalled f hlt h.1 h.2.1 h.2.2
        · rename_i h
          obtain rfl := Option.some.inj hn
          exact .noError f hlt h
      · rename_i hle
        obtain rfl := Option.some.inj hn
        exact .batchEnd f (by omega)
    | store =>
      simp only [pollStep] at hn
      split at hn
      · rename_i h
        split at hn
        · rename_i hlen
          obtain rfl := Option.some.inj hn
          exact .stored f h.1 h.2 hlen
        · rename_i hlen
          obtain rfl := Option.some.inj hn
          exact .storeThrew f h.1 (by omega)
      · rename_i h
        obtain rfl := Option.some.inj hn
        exact .notStored f (by rwa [not_and_or, not_not, not_not] at h)
    | deleteRef =>
      obtain rfl := Option.some.inj hn
      exact .refDeleted f
    | put =>
      obtain rfl := Option.some.inj hn
      exact .put f
  | release n callbacks pending =>
    simp only [pollStep] at hn
    split at hn
    · rename_i hpend
      obtain rfl := Option.some.inj hn
      subst hpend
      exact .threw n callbacks
    · rename_i hpend
      obtain rfl : pending = false := by simpa using hpend
      split at hn
      · rename_i h
        obtain rfl := Option.some.inj hn
        exact .released n callbacks h.1 h.2
      · rename_i h
        obtain rfl := Option.some.inj hn
        exact .notReleased n callbacks h

theorem closeStep_moves {p : ClosePc} (hn : closeStep cfg s t ans p = some s') :
    CloseMoves cfg s t ans p s' := by
  cases p with
  | tryAcquire =>
    simp only [closeStep] at hn
    split at hn
    · rename_i hsem
      split at hn
      · rename_i htime
        obtain rfl := Option.some.inj hn
        exact .timedOut hsem htime
      · rename_i htime
        split at hn
        · rename_i hall
          obtain rfl := Option.some.inj hn
          exact .drained hsem (by simpa using htime) hall
        · cases hn
    · rename_i hsem
      obtain rfl := Option.some.inj hn
      exact .unlimited (by simpa using hsem)
  | getIOCB =>
    simp only [closeStep] at hn
    split at hn
    · rename_i hg
      obtain rfl := Option.some.inj hn
      exact .noSpace hg
    · rename_i b pool hg
      obtain rfl := Option.some.inj hn
      exact .gotIOCB b pool hg
  | prep b =>
    obtain rfl := Option.some.inj hn
    exact .prepared b
  | ioSubmit b =>
    simp only [closeStep] at hn
    split at hn
    · rename_i hneg
      obtain rfl := Option.some.inj hn
      exact .rejected b hneg
    · rename_i hpos
      split at hn
      · rename_i hfd
        obtain rfl := Option.some.inj hn
        exact .accepted b (by omega) hfd
      · cases hn
  | putIOCB b errno =>
    obtain rfl := Option.some.inj hn
    exact .undone b errno
  | lock =>
    simp only [closeStep] at hn
    split at hn
    · rename_i hlock
      obtain rfl := Option.some.inj hn
      exact .locked hlock
    · cases hn
  | unlock =>
    obtain rfl := Option.some.inj hn
    exact .unlocked
  | getEvents =>
    simp only [closeStep] at hn
    split at hn
    · rename_i hret
      split at hn
      · rename_i hev
        obtain rfl := Option.some.inj hn
        exact .readFailed hev
      · rename_i hev
        obtain ⟨hmax, hk⟩ := hret.resolve_left hev
        obtain rfl := Option.some.inj hn
        exact .read _ (by omega) hk
    · cases hn
  | put i result =>
    simp only [closeStep] at hn
    split at hn
    · rename_i hlt
      obtain rfl := Option.some.inj hn
      exact .put i result hlt
    · rename_i hle
      obtain rfl := Option.some.inj hn
      exact .batchEnd i result (by omega)
  | queueRelease =>
    obtain rfl := Option.some.inj hn
    exact .queueReleased
  | destroy =>
    obtain rfl := Option.some.inj hn
    exact .destroyed
  | free =>
    obtain rfl := Option.some.inj hn
    exact .freed

theorem callStep_moves (s : State Tid) (t : Tid) (m : Method) :
    CallMoves s t m (callStep s t m) := by
  cases m with
  | submit a =>
    simp only [callStep]
    split
    · rename_i hcl
      exact .refused a hcl
    · rename_i hcl
      exact .submit a (by simpa using hcl)
  | poll =>
    simp only [callStep]
    split
    · rename_i hcl
      exact .pollClosed hcl
    · rename_i hcl
      exact .poll (by simpa using hcl)
  | pollInto callbacks min max => exact .pollInto callbacks min max
  | close =>
    simp only [callStep]
    split
    · rename_i hcl
      exact .closeAgain hcl
    · rename_i hcl
      exact .close (by simpa using hcl)

/-- A step of the system: a call, a move of a thread, or a step of the kernel
or of the rest of the process. -/
inductive NextMoves (cfg : Config) (s : State Tid) : Label Tid → State Tid → Prop
  | call (t o m s') (hpc : s.pc t = .idle o) (h : CallMoves s t m s') :
      NextMoves cfg s (.call t m) s'
  | submit (t ans p s') (hpc : s.pc t = .submit p) (h : SubmitMoves cfg s t ans p s') :
      NextMoves cfg s (.step t ans) s'
  | blocked (t ans p s') (hpc : s.pc t = .blocked p) (h : BlockedMoves cfg s t ans p s') :
      NextMoves cfg s (.step t ans) s'
  | poll (t ans p s') (hpc : s.pc t = .poll p) (h : PollMoves cfg s t ans p s') :
      NextMoves cfg s (.step t ans) s'
  | close (t ans p s') (hpc : s.pc t = .close p) (h : CloseMoves cfg s t ans p s') :
      NextMoves cfg s (.step t ans) s'
  | complete (k res r) (hr : s.inflight[k]? = some r)
      (hres : -2147483648 < res ∧ res < 2147483648) :
      NextMoves cfg s (.complete k res) (s.complete k ⟨r.obj, res, r.op⟩)
  | redeliver (k ev) (hev : s.delivered[k]? = some ev) :
      NextMoves cfg s (.redeliver k) { s with ring := s.ring ++ [ev] }
  | setForceSyscall (value) :
      NextMoves cfg s (.setForceSyscall value) { s with forceSysCall := value }
  | closeDumbHandlers : NextMoves cfg s .closeDumbHandlers { s with dumbWriteHandler := 0 }

theorem next_moves (hn : next cfg s l = some s') : NextMoves cfg s l s' := by
  cases l with
  | call t m =>
    simp only [next] at hn
    split at hn
    · rename_i o hpc
      obtain rfl := Option.some.inj hn
      exact .call t o m _ hpc (callStep_moves s t m)
    · cases hn
  | step t ans =>
    simp only [next] at hn
    rcases hpc : s.pc t with o | p | p | p | p <;> rw [hpc] at hn
    · cases hn
    · exact .submit t ans p s' hpc (submitStep_moves hn)
    · exact .blocked t ans p s' hpc (blockedStep_moves hn)
    · exact .poll t ans p s' hpc (pollStep_moves hn)
    · exact .close t ans p s' hpc (closeStep_moves hn)
  | complete k res =>
    simp only [next, completeStep] at hn
    split at hn
    · cases hn
    · rename_i r hr
      split at hn
      · rename_i hres
        obtain rfl := Option.some.inj hn
        exact .complete k res r hr hres
      · cases hn
  | redeliver k =>
    obtain ⟨ev, hev, rfl⟩ := Option.map_eq_some_iff.mp hn
    exact .redeliver k ev hev
  | setForceSyscall value =>
    obtain rfl := Option.some.inj hn
    exact .setForceSyscall value
  | closeDumbHandlers =>
    obtain rfl := Option.some.inj hn
    exact .closeDumbHandlers

end ArtemisNative
