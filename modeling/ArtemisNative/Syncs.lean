/-
ArtemisNative/Syncs.lean

Repeated calls of `fdatasync`.

With `useFdatasync`, `blockedPoll` syncs the file of an event before it looks at its result,
unless the event before it in the batch was of the same file: `lastFile` remembers that one,
and is reset to -1 with each batch.  `eagerNext` is the plain version, in which every event is
synced.

Step by step the two go through the same states, but for the log (`Syncing.step`), since
`lastFile` is read nowhere else and no step reads the log.  In both logs each event has an
`fdatasync` on its own file between the read of its batch and the first call for it; and
where the plain version has one for each event, `blockedPoll` has one for each maximal run of
events of one file (`syncs_safe`).  A request on a negative descriptor is not accepted, so -1
is the file of no event.
-/
import ArtemisNative.Batch
import ArtemisNative.Lib.Runs

namespace ArtemisNative

open Transition Runs

variable {Tid : Type} [DecidableEq Tid] {cfg : Config} {s s' x x' : State Tid} {t u p : Tid}
variable {ans : Answer} {l : Label Tid} {ls : List (Label Tid)} {f : Frame} {st : Stage}

/-! ### The log is not read -/

/-- The state with another history of observations. -/
def State.withLog (s : State Tid) (log : List Obs) : State Tid := { s with log := log }

/-- The step `g` adds observations to the log and does not read it. -/
def Appends (g : State Tid → Option (State Tid)) (s s' : State Tid) : Prop :=
  ∃ obs, s'.log = s.log ++ obs ∧ ∀ log, g (s.withLog log) = some (s'.withLog (log ++ obs))

omit [DecidableEq Tid] in
theorem Appends.silent {g : State Tid → Option (State Tid)} (hlog : s'.log = s.log)
    (h : ∀ log, g (s.withLog log) = some (s'.withLog log)) : Appends g s s' :=
  ⟨[], by rw [hlog, List.append_nil], fun log => by rw [List.append_nil, h log]⟩

omit [DecidableEq Tid] in
theorem mayReturn_withLog (log : List Obs) (max result : ℤ) :
    (s.withLog log).mayReturn max result = s.mayReturn max result := rfl

/-- In each branch of a step function: it says nothing, or it says one list of observations. -/
theorem submitStep_appends {q : SubmitPc} (hn : submitStep cfg s t ans q = some s') :
    Appends (fun s => submitStep cfg s t ans q) s s' := by
  cases q <;> simp only [submitStep] at hn <;> (repeat' split at hn) <;> cases hn <;>
    refine .silent rfl fun log => ?_ <;> simp only [submitStep, State.withLog] <;> simp [*] <;> rfl

theorem eventStep_appends (hn : eventStep cfg s t ans f st = some s') :
    Appends (fun s => eventStep cfg s t ans f st) s s' := by
  cases st <;> simp only [eventStep] at hn <;> (repeat' split at hn) <;> cases hn <;>
    first
      | (refine .silent rfl fun log => ?_
         simp only [eventStep, State.withLog]
         simp [*]
         rfl)
      | (refine ⟨_, rfl, fun log => ?_⟩
         simp only [eventStep, State.withLog]
         simp [*]
         rfl)

theorem blockedStep_appends {q : BlockedPc} (hn : blockedStep cfg s t ans q = some s') :
    Appends (fun s => blockedStep cfg s t ans q) s s' := by
  cases q with
  | event f st => exact eventStep_appends hn
  | lock =>
    simp only [blockedStep] at hn
    split at hn <;> cases hn
    next hfree =>
      refine .silent rfl fun log => ?_
      exact if_pos hfree
  | unlock o =>
    obtain rfl := Option.some.inj hn
    exact .silent rfl fun _ => rfl
  | getEvents f =>
    simp only [blockedStep] at hn
    (repeat' split at hn) <;> cases hn
    · next hmay hint =>
      refine .silent rfl fun log => ?_
      exact (if_pos hmay).trans (if_pos hint)
    · refine .silent rfl fun log => ?_
      simp only [blockedStep, mayReturn_withLog, *, ↓reduceIte]
      rfl
    · refine ⟨_, rfl, fun log => ?_⟩
      simp only [blockedStep, mayReturn_withLog, *, ↓reduceIte]
      rfl

theorem pollStep_appends {q : PollPc} (hn : pollStep cfg s t ans q = some s') :
    Appends (fun s => pollStep cfg s t ans q) s s' := by
  rcases q with ⟨cs, min, max⟩ | ⟨f, st⟩ | ⟨n, cs, pending⟩
  · simp only [pollStep] at hn
    (repeat' split at hn) <;> cases hn
    · refine .silent rfl fun log => ?_
      simp only [pollStep, mayReturn_withLog, *, ↓reduceIte]
      rfl
    · refine ⟨_, rfl, fun log => ?_⟩
      simp only [pollStep, mayReturn_withLog, *, ↓reduceIte]
      rfl
  · cases st <;> simp only [pollStep] at hn <;> (repeat' split at hn) <;> cases hn <;>
    first
      | (refine .silent rfl fun log => ?_
         simp only [pollStep, State.withLog]
         simp [*]
         rfl)
      | (refine ⟨_, rfl, fun log => ?_⟩
         simp only [pollStep, State.withLog]
         simp [*]
         rfl)
  · simp only [pollStep] at hn
    (repeat' split at hn) <;> cases hn <;>
    first
      | (refine .silent rfl fun log => ?_
         simp only [pollStep, State.withLog]
         simp [*]
         rfl)
      | (refine ⟨_, rfl, fun log => ?_⟩
         simp only [pollStep, State.withLog]
         simp [*]
         rfl)

theorem closeStep_appends {q : ClosePc} (hn : closeStep cfg s t ans q = some s') :
    Appends (fun s => closeStep cfg s t ans q) s s' := by
  cases q with
  | getEvents =>
    simp only [closeStep] at hn
    (repeat' split at hn) <;> cases hn
    · refine .silent rfl fun log => ?_
      simp only [closeStep, mayReturn_withLog, *, ↓reduceIte]
      rfl
    · refine ⟨_, rfl, fun log => ?_⟩
      simp only [closeStep, mayReturn_withLog, *, ↓reduceIte]
      rfl
  | _ =>
    simp only [closeStep] at hn
    (repeat' split at hn) <;> cases hn <;> refine .silent rfl fun log => ?_ <;>
      simp only [closeStep, State.withLog] <;> simp [*] <;> rfl

/-- **The log is a history**: what a step adds to it, and what else it does, does not depend
on the log. -/
theorem next_appends_withLog (hn : next cfg s l = some s') :
    Appends (fun s => next cfg s l) s s' := by
  cases l with
  | call t m =>
    simp only [next] at hn
    split at hn
    · next o hpc =>
      obtain rfl := Option.some.inj hn
      refine .silent ?_ fun log => ?_
      · cases m <;> simp only [callStep] <;> (try split) <;> rfl
      · simp only [next, State.withLog, hpc]
        cases m <;> simp only [callStep] <;> (try split) <;> rfl
    · cases hn
  | step t ans =>
    simp only [next] at hn
    have hstep : Appends (fun y => threadStep cfg y t ans (s.pc t)) s s' := by
      rcases hpc : s.pc t with o | q | q | q | q
      all_goals rw [hpc] at hn
      · cases hn
      · exact submitStep_appends hn
      · exact blockedStep_appends hn
      · exact pollStep_appends hn
      · exact closeStep_appends hn
    exact hstep
  | complete k res =>
    simp only [next, completeStep] at hn
    (repeat' split at hn) <;> cases hn
    refine ⟨_, rfl, fun log => ?_⟩
    simp only [next, completeStep, State.withLog, *, and_self, ↓reduceIte]
    rfl
  | redeliver k =>
    simp only [next] at hn
    obtain ⟨ev, hev, rfl⟩ := Option.map_eq_some_iff.mp hn
    refine .silent rfl fun log => ?_
    simp only [next, State.withLog, hev, Option.map_some]
  | setForceSyscall v =>
    obtain rfl := Option.some.inj hn
    exact .silent rfl fun _ => rfl
  | closeDumbHandlers =>
    obtain rfl := Option.some.inj hn
    exact .silent rfl fun _ => rfl

/-! ### The plain version -/

/-- The steps of the library with a `blockedPoll` that calls `fdatasync` before every event. -/
def eagerNext (cfg : Config) (s : State Tid) : Label Tid → Option (State Tid)
  | .step t ans =>
    match s.pc t with
    | .blocked (.event f .sync) =>
      let fd := (s.iocb (s.events f.i).obj).aio_fildes
      if cfg.useFdatasync then
        some ((s.record [.synced fd ans.fdatasync]).goto t
          (.blocked (.event { f with lastFile := fd } .onError)))
      else
        some (s.goto t (.blocked (.event f .onError)))
    | p => threadStep cfg s t ans p
  | l => next cfg s l

/-- The step decides about an `fdatasync`. -/
def AtSync (s : State Tid) (l : Label Tid) : Prop :=
  ∃ t ans f, l = .step t ans ∧ s.pc t = .blocked (.event f .sync)

/-- Elsewhere the two versions do the same. -/
theorem eagerNext_of_not (h : ¬AtSync s l) : eagerNext cfg s l = next cfg s l := by
  cases l with
  | step t ans =>
    rw [eagerNext]
    split
    · next f hpc => exact absurd ⟨t, ans, f, rfl, hpc⟩ h
    · rfl
  | _ => rfl

/-- Where the library may leave the `fdatasync` out, the plain version goes to the same state
but for the log. -/
theorem eagerNext_sync (hsync : cfg.useFdatasync = true)
    (hpc : s.pc t = .blocked (.event f .sync)) (hm : EventMoves cfg s t ans f .sync s')
    (log : List Obs) :
    eagerNext cfg (s.withLog log) (.step t ans) =
      some (s'.withLog (log ++ [.synced (s.iocb (s.events f.i).obj).aio_fildes
        ans.fdatasync])) := by
  have hstep : eagerNext cfg (s.withLog log) (.step t ans) =
      some (((s.withLog log).record [.synced (s.iocb (s.events f.i).obj).aio_fildes
        ans.fdatasync]).goto t (.blocked (.event
          { f with lastFile := (s.iocb (s.events f.i).obj).aio_fildes } .onError))) := by
    rw [eagerNext]
    simp only [State.withLog, hpc, hsync, if_true]
  rw [hstep]
  cases hm with
  | synced _ _ => rfl
  | notSynced hsame =>
    rw [← hsame hsync]
    rfl

/-- The plain version can follow any run, through the same states but for the log. -/
theorem eager_run (hsync : cfg.useFdatasync = true) {P : State Tid → Label Tid → Prop}
    (hr : Run (next cfg) P s ls x) (log : List Obs) :
    ∃ log', Run (eagerNext cfg) (fun _ _ => True) (s.withLog log) ls (x.withLog log') := by
  induction hr generalizing log with
  | nil s => exact ⟨log, .nil _⟩
  | @cons s l s' ls x _ hn _ ih =>
    obtain ⟨more, hmore⟩ : ∃ more, eagerNext cfg (s.withLog log) l = some (s'.withLog more) := by
      by_cases hat : AtSync s l
      · obtain ⟨t, ans, f, rfl, hpc⟩ := hat
        have hm := eventStep_moves (show eventStep cfg s t ans f .sync = some s' by
          rw [← hn, next, hpc]
          rfl)
        exact ⟨_, eagerNext_sync hsync hpc hm log⟩
      · obtain ⟨obs, -, happ⟩ := next_appends_withLog hn
        have hat' : ¬AtSync (s.withLog log) l := hat
        exact ⟨_, (eagerNext_of_not hat').trans (happ log)⟩
    obtain ⟨log', hr'⟩ := ih more
    exact ⟨log', .cons trivial hmore hr'⟩

/-! ### What is synced -/

def Obs.synced? : Obs → Option ℤ
  | .synced fd _ => some fd
  | _ => none

/-- The request that `onError` or `done` is called for. -/
def Obs.call? : Obs → Option ℕ
  | .onError o _ _ | .done o _ => some o
  | _ => none

/-- The files of the calls of `fdatasync`. -/
def syncedFiles (said : List Obs) : List ℤ := said.filterMap Obs.synced?

/-- Each call of `onError` or `done` comes behind an `fdatasync` on the file of its request. -/
def SyncedFirst (file : ℕ → Option ℤ) (said : List Obs) : Prop :=
  ∀ (n : ℕ) (ob : Obs) (o : ℕ), said[n]? = some ob → ob.call? = some o →
    ∃ fd, file o = some fd ∧ fd ∈ syncedFiles (said.take n)

/-- What is said about the first `k` events of a batch, by `blockedPoll` and by the plain
version; `files` are the files of the events. -/
structure Covers (file : ℕ → Option ℤ) (files : List (Option ℤ)) (k : ℕ)
    (said plain : List Obs) : Prop where
  /-- the file of each of these events has been synced -/
  covered : ∀ fd, some fd ∈ files.take k → fd ∈ syncedFiles said
  /-- once for each maximal run of events of one file, and by the plain version for each
  event -/
  runs : (syncedFiles said).length = runs (files.take k)
  each : (syncedFiles plain).map some = files.take k
  before : SyncedFirst file said
  beforePlain : SyncedFirst file plain
  /-- apart from that the two say the same -/
  same : said.filter (fun ob => ob.synced? = none) = plain.filter (fun ob => ob.synced? = none)

variable {file : ℕ → Option ℤ} {files : List (Option ℤ)} {k : ℕ} {said plain obs : List Obs}
variable {fd : ℤ} {ok : Bool}

theorem syncedFiles_append (said more : List Obs) :
    syncedFiles (said ++ more) = syncedFiles said ++ syncedFiles more := List.filterMap_append

theorem SyncedFirst.append (h : SyncedFirst file said)
    (hobs : ∀ ob ∈ obs, ∀ o, ob.call? = some o → ∃ fd, file o = some fd ∧ fd ∈ syncedFiles said) :
    SyncedFirst file (said ++ obs) := by
  intro n ob o hn hcall
  rcases Nat.lt_or_ge n said.length with hlt | hge
  · rw [List.getElem?_append_left hlt] at hn
    rw [List.take_append_of_le_length hlt.le]
    exact h n ob o hn hcall
  · rw [List.getElem?_append_right hge] at hn
    obtain ⟨fd, hfd, hmem⟩ := hobs ob (List.mem_of_getElem? hn) o hcall
    refine ⟨fd, hfd, ?_⟩
    rw [List.take_append, syncedFiles_append, List.take_of_length_le hge]
    exact List.mem_append_left _ hmem

namespace Covers

theorem coveredPlain (h : Covers file files k said plain) (hfd : some fd ∈ files.take k) :
    fd ∈ syncedFiles plain := by
  rw [← h.each] at hfd
  obtain ⟨fd', hmem, he⟩ := List.mem_map.mp hfd
  rwa [← Option.some.inj he]

theorem nil (file : ℕ → Option ℤ) (files : List (Option ℤ)) (hobs : ∀ ob ∈ obs,
    ob.synced? = none ∧ ob.call? = none) : Covers file files 0 obs obs := by
  have hnone : syncedFiles obs = [] :=
    List.filterMap_eq_nil_iff.mpr fun ob hob => (hobs ob hob).1
  have hfirst : SyncedFirst file obs := by
    intro n ob o hn hcall
    rw [(hobs ob (List.mem_of_getElem? hn)).2] at hcall
    cases hcall
  exact ⟨fun fd hfd => by simp at hfd, by simp [hnone], by simp [hnone], hfirst, hfirst, rfl⟩

/-- Observations that are no `fdatasync`, and calls for these events only. -/
theorem say (h : Covers file files k said plain) (hsync : ∀ ob ∈ obs, ob.synced? = none)
    (hcall : ∀ ob ∈ obs, ∀ o, ob.call? = some o →
      ∃ fd, file o = some fd ∧ some fd ∈ files.take k) :
    Covers file files k (said ++ obs) (plain ++ obs) := by
  have hnone : syncedFiles obs = [] := List.filterMap_eq_nil_iff.mpr hsync
  have hsaid : ∀ more, syncedFiles (more ++ obs) = syncedFiles more := fun more => by
    rw [syncedFiles_append, hnone, List.append_nil]
  refine ⟨?_, ?_, ?_, h.before.append ?_, h.beforePlain.append ?_, ?_⟩
  · rw [hsaid]
    exact h.covered
  · rw [hsaid]
    exact h.runs
  · rw [hsaid]
    exact h.each
  · intro ob hob o ho
    obtain ⟨fd, hfd, hmem⟩ := hcall ob hob o ho
    exact ⟨fd, hfd, h.covered fd hmem⟩
  · intro ob hob o ho
    obtain ⟨fd, hfd, hmem⟩ := hcall ob hob o ho
    exact ⟨fd, hfd, h.coveredPlain hmem⟩
  · rw [List.filter_append, List.filter_append, h.same]

theorem take_succ (hfile : files[k]? = some (some fd)) :
    files.take (k + 1) = files.take k ++ [some fd] := by
  rw [List.take_add_one, hfile]
  rfl

theorem each_succ (h : Covers file files k said plain) (hfile : files[k]? = some (some fd)) :
    (syncedFiles (plain ++ [.synced fd ok])).map some = files.take (k + 1) := by
  rw [syncedFiles_append, List.map_append, h.each, take_succ hfile]
  rfl

/-- The event is of another file than the one before it. -/
theorem sync (h : Covers file files k said plain) (hfile : files[k]? = some (some fd))
    (hlast : (files.take k).getLast? ≠ some (some fd)) :
    Covers file files (k + 1) (said ++ [.synced fd ok]) (plain ++ [.synced fd ok]) := by
  have hsynced : syncedFiles (said ++ [.synced fd ok]) = syncedFiles said ++ [fd] :=
    syncedFiles_append _ _
  have hquiet : ∀ {more : List Obs}, ∀ ob ∈ [Obs.synced fd ok], ∀ o, ob.call? = some o →
      ∃ fd, file o = some fd ∧ fd ∈ syncedFiles more := by
    intro more ob hob o ho
    obtain rfl := List.mem_singleton.mp hob
    cases ho
  refine ⟨fun fd' hfd => ?_, ?_, h.each_succ hfile, h.before.append hquiet,
    h.beforePlain.append hquiet, ?_⟩
  · rw [take_succ hfile] at hfd
    rw [hsynced]
    rcases List.mem_append.mp hfd with hfd | hfd
    · exact List.mem_append_left _ (h.covered fd' hfd)
    · obtain rfl := Option.some.inj (List.mem_singleton.mp hfd)
      exact List.mem_append_right _ (List.mem_singleton_self _)
  · rw [hsynced, take_succ hfile, runs_concat_of_ne hlast, List.length_append, h.runs]
    rfl
  · rw [List.filter_append, List.filter_append, h.same]

/-- The event is of the file of the one before it. -/
theorem skip (h : Covers file files k said plain) (hfile : files[k]? = some (some fd))
    (hlast : (files.take k).getLast? = some (some fd)) :
    Covers file files (k + 1) said (plain ++ [.synced fd ok]) := by
  have hquiet : ∀ ob ∈ [Obs.synced fd ok], ∀ o, ob.call? = some o →
      ∃ fd, file o = some fd ∧ fd ∈ syncedFiles plain := by
    intro ob hob o ho
    obtain rfl := List.mem_singleton.mp hob
    cases ho
  refine ⟨fun fd' hfd => ?_, ?_, h.each_succ hfile, h.before, h.beforePlain.append hquiet, ?_⟩
  · rw [take_succ hfile] at hfd
    rcases List.mem_append.mp hfd with hfd | hfd
    · exact h.covered fd' hfd
    · obtain rfl := Option.some.inj (List.mem_singleton.mp hfd)
      exact h.covered fd' (List.mem_of_getLast? hlast)
  · rw [take_succ hfile, runs_concat_of_eq hlast, h.runs]
  · rw [List.filter_append, h.same]
    exact (List.append_nil _).symm

end Covers

/-! ### Where the thread is -/

variable {batch : List IoEvent}

/-- Whether the event at hand is past its `fdatasync`. -/
def Stage.past : Stage → ℕ
  | .test | .stop | .sync => 0
  | _ => 1

/-- The first `k` events of the batch are past their `fdatasync`: in the loop, those up to
the event at hand; behind the loop, all of them, or those before the one that `blockedPoll`
took for the sentinel. -/
def Past (batch : List IoEvent) (said : List Obs) (k : ℕ) : Pc → Prop
  | .blocked (.event f st) => k = f.i + st.past
  | .blocked (.getEvents _) => k = batch.length
  | _ => ∃ e, batch[k]? = some e ∧ .stopped e.op ∈ said

/-- The locals of `blockedPoll` within the batch: `lastFile` is the file of the event that
went past its `fdatasync` last. -/
structure Frame.Within (files : List (Option ℤ)) (k : ℕ) (f : Frame) (st : Stage) : Prop where
  result : f.result = files.length
  lt : st ≠ .test → f.i < f.result
  lastFile : k = 0 ∧ f.lastFile = -1 ∨ (files.take k).getLast? = some (some f.lastFile)

def Pc.Within (files : List (Option ℤ)) (k : ℕ) : Pc → Prop
  | .blocked (.event f st) => f.Within files k st
  | .blocked _ => True
  | _ => False

/-- What a step says about the event at hand, away from the `fdatasync`. -/
theorem EventMoves.quiet (hm : EventMoves cfg x p ans f st x') (hst : st ≠ .sync)
    (hlog : x'.log = x.log ++ obs) : (∀ ob ∈ obs, ob.synced? = none) ∧
      ∀ ob ∈ obs, ∀ o, ob.call? = some o → st.past = 1 ∧ o = (x.events f.i).op := by
  have hnone : x.log = x.log ++ obs → (∀ ob ∈ obs, ob.synced? = none) ∧
      ∀ ob ∈ obs, ∀ o, ob.call? = some o → st.past = 1 ∧ o = (x.events f.i).op := by
    intro h
    obtain rfl := List.self_eq_append_right.mp h
    exact ⟨nofun, nofun⟩
  have hone : ∀ ob : Obs, x.log ++ [ob] = x.log ++ obs → ob.synced? = none →
      (∀ o, ob.call? = some o → st.past = 1 ∧ o = (x.events f.i).op) →
      (∀ ob ∈ obs, ob.synced? = none) ∧
        ∀ ob ∈ obs, ∀ o, ob.call? = some o → st.past = 1 ∧ o = (x.events f.i).op := by
    intro ob h hsync hcall
    obtain rfl := List.append_cancel_left h
    exact ⟨fun ob hob => List.mem_singleton.mp hob ▸ hsync,
      fun ob hob => List.mem_singleton.mp hob ▸ hcall⟩
  cases hm with
  | synced _ _ | notSynced _ => exact absurd rfl hst
  | stopped =>
    obtain rfl := List.append_cancel_left hlog
    have hquiet : ∀ ob ∈ stopObs x f, ob.synced? = none ∧ ob.call? = none := by
      intro ob hob
      rcases List.mem_cons.mp hob with rfl | hob
      · exact ⟨rfl, rfl⟩
      · obtain ⟨j, -, rfl⟩ := List.mem_map.mp hob
        exact ⟨rfl, rfl⟩
    refine ⟨fun ob hob => (hquiet ob hob).1, fun ob hob o ho => ?_⟩
    rw [(hquiet ob hob).2] at ho
    cases ho
  | errorCalled _ _ => exact hone _ hlog rfl fun o ho => ⟨rfl, (Option.some.inj ho).symm⟩
  | doneCalled _ => exact hone _ hlog rfl fun o ho => ⟨rfl, (Option.some.inj ho).symm⟩
  | put _ | doneReturned _ _ | released _ _ | warned => exact hone _ hlog rfl nofun
  | _ => exact hnone hlog

/-- The loop goes on with the next event when the one at hand is past its `fdatasync`. -/
theorem EventMoves.past (hm : EventMoves cfg x p ans f st x') (hst : st ≠ .sync)
    (hpc : x.pc p = .blocked (.event f st)) (hlog : x'.log = x.log ++ obs)
    (hwithin : f.Within files k st) (hpast : k = f.i + st.past) (hle : k ≤ files.length)
    (hfiles : files.length = batch.length) (hbatch : f.i < f.result →
      batch[f.i]? = some (x.events f.i)) :
    Past batch (said ++ obs) k (x'.pc p) ∧ (x'.pc p).Within files k := by
  have hlt := hwithin.lt
  cases hm with
  | synced _ _ | notSynced _ => exact absurd rfl hst
  | isStop hlt' _ | isEvent hlt' _ =>
    rw [State.pc_goto]
    exact ⟨hpast, hwithin.result, fun _ => hlt', hwithin.lastFile⟩
  | batchEnd hle' =>
    rw [State.pc_goto]
    refine ⟨?_, trivial⟩
    have hres := hwithin.result
    simp only [Stage.past, add_zero] at hpast
    show k = batch.length
    omega
  | stopped =>
    obtain rfl := List.append_cancel_left hlog
    rw [State.pc_goto]
    refine ⟨⟨x.events f.i, ?_, List.mem_append_right _ List.mem_cons_self⟩, trivial⟩
    simp only [Stage.past, add_zero] at hpast
    rw [hpast]
    exact hbatch (hlt nofun)
  | refDeleted _ | warned =>
    rw [State.pc_goto]
    exact ⟨hpast, hwithin.result, fun h => absurd rfl h, hwithin.lastFile⟩
  | _ =>
    rw [State.pc_goto]
    exact ⟨hpast, hwithin.result, fun _ => hlt nofun, hwithin.lastFile⟩

/-! ### Side by side -/

/-- Thread `p` has read the batch and gone on from state `s` to state `x`; `said` is the log
since, and the plain version would have said `plain`. -/
structure Syncing (s : State Tid) (p : Tid) (batch : List IoEvent) (x : State Tid) (k : ℕ)
    (said plain : List Obs) : Prop where
  holding : Holding s p batch x
  log : x.log = s.log ++ said
  past : Past batch said k (x.pc p)
  le : k ≤ batch.length
  within : (x.pc p).Within (batch.map s.file) k
  covers : Covers (fun o => (s.accepted[o]?).map Origin.fd) (batch.map s.file) k said plain

namespace Syncing

variable {log : List Obs}

omit [DecidableEq Tid] in
/-- In the loop, the thread is in `blockedPoll`. -/
theorem at_event (h : Syncing s p batch x k said plain) (hp : (x.pc p).inBatch = true) :
    ∃ f st, x.pc p = .blocked (.event f st) := by
  have hwithin := h.within
  rcases hpc : x.pc p with o | q | q | q | q <;> rw [hpc] at hwithin hp
  · cases hwithin
  · cases hwithin
  · cases q with
    | event f st => exact ⟨f, st, rfl⟩
    | _ => cases hp
  · cases hwithin
  · cases hwithin

omit [DecidableEq Tid] in
/-- The buffer still holds the event at hand. -/
theorem at_hand (h : Syncing s p batch x k said plain) (hpc : x.pc p = .blocked (.event f st))
    (hlt : f.i < f.result) : batch[f.i]? = some (x.events f.i) := by
  have hwithin := h.within
  rw [hpc] at hwithin
  have hlen : f.i < batch.length := by
    rw [hwithin.result, List.length_map] at hlt
    exact hlt
  have he : batch[f.i]? = some batch[f.i] := List.getElem?_eq_getElem hlen
  rw [h.holding.buffer (by rw [hpc]; rfl) f.i batch[f.i] he]
  exact he

omit [DecidableEq Tid] in
/-- Its request was accepted before the batch was read, and its file is the one that was
given then. -/
theorem file_eq (h : Syncing s p batch x k said plain)
    (hknown : ∀ e ∈ batch, e.op < s.accepted.length)
    (hpc : x.pc p = .blocked (.event f st)) (hlt : f.i < f.result) :
    ∃ g, s.accepted[(x.events f.i).op]? = some g ∧
      (batch.map s.file)[f.i]? = some (some g.fd) ∧
      ∀ g', x.accepted[(x.events f.i).op]? = some g' → g' = g := by
  have he := h.at_hand hpc hlt
  have hacc := List.getElem?_eq_getElem (hknown _ (List.mem_of_getElem? he))
  refine ⟨_, hacc, ?_, fun g' hg' => ?_⟩
  · rw [List.getElem?_map, he, Option.map_some, State.file, hacc, Option.map_some]
  · obtain ⟨more, hmore⟩ := h.holding.grown
    rw [← hmore, List.getElem?_append_left (hknown _ (List.mem_of_getElem? he)), hacc] at hg'
    exact (Option.some.inj hg').symm

/-- A step away from the `fdatasync`, of any thread. -/
theorem say (h : Syncing s p batch x k said plain)
    (hknown : ∀ e ∈ batch, e.op < s.accepted.length) (hl : Within p x l)
    (hat : ¬AtSync x l) (hn : next cfg x l = some x') (hlog : x'.log = x.log ++ obs) :
    Syncing s p batch x' k (said ++ obs) (plain ++ obs) := by
  have hhold := h.holding.step hl hn
  have hlog' : x'.log = s.log ++ (said ++ obs) := by rw [hlog, h.log, List.append_assoc]
  by_cases hp : l.tid? = some p
  · obtain ⟨f, st, hpc⟩ := h.at_event hl.2
    obtain ⟨ans, rfl⟩ : ∃ ans, l = .step p ans := by
      cases l with
      | step t ans =>
        obtain rfl := Option.some.inj hp
        exact ⟨ans, rfl⟩
      | call t m =>
        obtain rfl := Option.some.inj hp
        simp only [next, hpc] at hn
        cases hn
      | _ => cases hp
    have hst : st ≠ .sync := by
      rintro rfl
      exact hat ⟨p, ans, f, rfl, hpc⟩
    have hm := eventStep_moves (show eventStep cfg x p ans f st = some x' by
      rw [← hn, next, hpc]
      rfl)
    have hpast := h.past
    have hwithin := h.within
    rw [hpc] at hpast hwithin
    obtain ⟨hsync, hcall⟩ := hm.quiet hst hlog
    obtain ⟨hpast', hwithin'⟩ := hm.past hst hpc hlog hwithin hpast
      (by rw [List.length_map]; exact h.le) (List.length_map _) (h.at_hand hpc)
    refine ⟨hhold, hlog', hpast', h.le, hwithin', h.covers.say hsync fun ob hob o ho => ?_⟩
    -- a call is for the event at hand, and that is past its `fdatasync`
    obtain ⟨hone, rfl⟩ := hcall ob hob o ho
    have hlt : f.i < f.result := hwithin.lt fun he => by
      rw [he] at hone
      cases hone
    obtain ⟨g, hg, hfile, -⟩ := h.file_eq hknown hpc hlt
    refine ⟨g.fd, by rw [hg]; rfl, ?_⟩
    rw [show k = f.i + 1 from hpast.trans (congrArg _ hone), Covers.take_succ hfile]
    exact List.mem_append_right _ (List.mem_singleton_self _)
  · obtain ⟨obs', hlog₂, haside⟩ := h.holding.aside hl hn hp
    obtain rfl := List.append_cancel_left (hlog.symm.trans hlog₂)
    have hpc := next_pc_of_ne hn hp
    have hquiet : ∀ ob ∈ obs, ob.synced? = none ∧ ob.call? = none := by
      intro ob hob
      have hob := haside ob hob
      cases ob <;> first | exact ⟨rfl, rfl⟩ | cases hob
    refine ⟨hhold, hlog', ?_, h.le, ?_, h.covers.say (fun ob hob => (hquiet ob hob).1) ?_⟩
    · obtain ⟨f, st, hev⟩ := h.at_event hl.2
      have hpast := h.past
      rw [hpc, hev]
      rw [hev] at hpast
      exact hpast
    · rw [hpc]
      exact h.within
    · intro ob hob o ho
      rw [(hquiet ob hob).2] at ho
      cases ho

/-- The `fdatasync` is called, or left out. -/
theorem sync (h : Syncing s p batch x k said plain) (hx : Consistent cfg x)
    (hknown : ∀ e ∈ batch, e.op < s.accepted.length) (hsync : cfg.useFdatasync = true)
    (hl : Within p x (.step p ans)) (hpc : x.pc p = .blocked (.event f .sync))
    (hm : EventMoves cfg x p ans f .sync x') (hn : next cfg x (.step p ans) = some x') :
    ∃ said', Syncing s p batch x' (k + 1) said'
      (plain ++ [.synced (x.iocb (x.events f.i).obj).aio_fildes ans.fdatasync]) := by
  have hhold := h.holding.step hl hn
  have hpast := h.past
  have hwithin := h.within
  rw [hpc] at hpast hwithin
  obtain rfl : k = f.i := hpast
  have hlt : f.i < f.result := hwithin.lt nofun
  have hle : f.i + 1 ≤ batch.length := by
    rw [hwithin.result, List.length_map] at hlt
    exact hlt
  -- the file of the event is in its iocb
  obtain ⟨g, -, hfile, huniq⟩ := h.file_eq hknown hpc hlt
  have hview : (x.view p).batch =
      x.events f.i :: eventsFrom x.events (f.i + 1) f.result := by
    rw [State.view, hpc]
    rfl
  obtain ⟨g', hg', hfd, hpos⟩ := hx.file_eq hview
  obtain rfl := huniq g' hg'
  rw [hfd]
  have hlast : ((batch.map s.file).take (f.i + 1)).getLast? = some (some g'.fd) := by
    rw [Covers.take_succ hfile, List.getLast?_concat]
  cases hm with
  | synced _ hne =>
    rw [hfd] at hne hn hhold ⊢
    refine ⟨said ++ [.synced g'.fd ans.fdatasync], hhold, ?_, ?_, hle, ?_,
      h.covers.sync hfile ?_⟩
    · show x.log ++ _ = _
      rw [h.log, List.append_assoc]
    · rw [State.pc_goto]
      rfl
    · rw [State.pc_goto]
      exact ⟨hwithin.result, fun _ => hlt, .inr hlast⟩
    · rcases hwithin.lastFile with ⟨hzero, -⟩ | heq
      · rw [hzero]
        simp
      · rw [heq]
        exact fun he => hne (Option.some.inj (Option.some.inj he))
  | notSynced hsame =>
    have hsame : f.lastFile = g'.fd := (hsame hsync).trans hfd
    refine ⟨said, hhold, h.log, ?_, hle, ?_, h.covers.skip hfile ?_⟩
    · rw [State.pc_goto]
      rfl
    · rw [State.pc_goto]
      exact ⟨hwithin.result, fun _ => hlt, .inr (hsame ▸ hlast)⟩
    · rcases hwithin.lastFile with ⟨-, hneg⟩ | heq
      · -- -1 is the file of no request
        omega
      · rw [← hsame]
        exact heq

/-- In each step the plain version can follow. -/
theorem step (h : Syncing s p batch x k said plain) (hx : Consistent cfg x)
    (hknown : ∀ e ∈ batch, e.op < s.accepted.length) (hsync : cfg.useFdatasync = true)
    (hl : Within p x l) (hn : next cfg x l = some x') :
    ∃ k' said' plain', Syncing s p batch x' k' said' plain' ∧
      ∀ log, eagerNext cfg (x.withLog (log ++ plain)) l =
        some (x'.withLog (log ++ plain')) := by
  by_cases hat : AtSync x l
  · obtain ⟨t, ans, f, rfl, hpc⟩ := hat
    -- no other thread is in the loop
    obtain rfl : t = p := by
      by_contra hne
      have hout := h.holding.others hl.2 t hne
      rw [hpc] at hout
      cases hout
    have hm := eventStep_moves (show eventStep cfg x t ans f .sync = some x' by
      rw [← hn, next, hpc]
      rfl)
    obtain ⟨said', h'⟩ := h.sync hx hknown hsync hl hpc hm hn
    refine ⟨k + 1, said', _, h', fun log => ?_⟩
    rw [← List.append_assoc]
    exact eagerNext_sync hsync hpc hm _
  · obtain ⟨obs, hlog, happ⟩ := next_appends_withLog hn
    refine ⟨k, said ++ obs, plain ++ obs, h.say hknown hl hat hn hlog, fun log => ?_⟩
    have hat' : ¬AtSync (x.withLog (log ++ plain)) l := hat
    rw [eagerNext_of_not hat', ← List.append_assoc]
    exact happ _

/-- **And so it can along the run.** -/
theorem run (h : Syncing s p batch x k said plain) (hx : Consistent cfg x)
    (hknown : ∀ e ∈ batch, e.op < s.accepted.length) (hsync : cfg.useFdatasync = true)
    (hr : Run (next cfg) (Within p) x ls x') (log : List Obs) :
    ∃ k' said' plain', Syncing s p batch x' k' said' plain' ∧
      Run (eagerNext cfg) (fun _ _ => True) (x.withLog (log ++ plain)) ls
        (x'.withLog (log ++ plain')) := by
  induction hr generalizing k said plain with
  | nil x => exact ⟨k, said, plain, h, .nil _⟩
  | cons hl hn _ ih =>
    obtain ⟨k₁, said₁, plain₁, h₁, hn₁⟩ := h.step hx hknown hsync hl hn
    obtain ⟨k', said', plain', h', hr'⟩ := ih h₁ (hx.step hl.1 hn)
    exact ⟨k', said', plain', h', .cons trivial (hn₁ log) hr'⟩

end Syncing

/-! ### Along a whole batch -/

/-- **Leaving out repeated calls of `fdatasync` is safe.**  Thread `p` reads a batch in
`blockedPoll` and goes through it up to state `x`, whatever else happens.  In `x` some `k`
events are past their `fdatasync`; behind the loop these are all events before the one that
was taken for the sentinel.  For each of them its own file has been synced since the read,
and before `onError` or `done` was called for it, in as many calls as there are runs of one
file; and the plain version goes through the same steps, to the same state but for the calls
of `fdatasync`. -/
theorem syncs_safe {env : Process} {ls₀ : List (Label Tid)} {s₁ : State Tid}
    (hq : 0 < cfg.queueSize) (hsync : cfg.useFdatasync = true)
    (hs : Run (next cfg) Orderly (.initial cfg env) ls₀ s)
    (hpc : s.pc p = .blocked (.getEvents f)) (hpos : 0 ≤ ans.events)
    (hl : Orderly s (.step p ans)) (hn : next cfg s (.step p ans) = some s₁)
    (hr : Run (next cfg) (Within p) s₁ ls x) :
    ∃ k said plain log, x.log = s₁.log ++ said ∧
      Past (s.ring.take ans.events.toNat) said k (x.pc p) ∧
      Covers (fun o => (s.accepted[o]?).map Origin.fd)
        ((s.ring.take ans.events.toNat).map s.file) k said plain ∧
      Run (eagerNext cfg) (fun _ _ => True) (.initial cfg env) (ls₀ ++ [.step p ans])
        (s₁.withLog log) ∧
      Run (eagerNext cfg) (fun _ _ => True) (s₁.withLog log) ls (x.withLog (log ++ plain)) := by
  have hcons : Consistent cfg s := (Consistent.initial hq env).run hs
  obtain ⟨hring, hs₁⟩ := blocked_read hpc hpos hn
  have hpc₁ : s₁.pc p = .blocked (.event
      { f with i := 0, result := ans.events.toNat, lastFile := -1 } .test) := by
    rw [hs₁, State.pc_goto]
  have hacc : s₁.accepted = s.accepted := by
    rw [hs₁]
    rfl
  have hfile : s₁.file = s.file := by
    funext e
    rw [State.file, hacc, State.file]
  have hknown : ∀ e ∈ s.ring.take ans.events.toNat, e.op < s₁.accepted.length := by
    rw [hacc]
    exact hcons.known _
  have hstart : Syncing s₁ p (s.ring.take ans.events.toNat) s₁ 0 [] [] := by
    refine ⟨?_, (List.append_nil _).symm, ?_, Nat.zero_le _, ?_, .nil _ _ (List.forall_mem_nil _)⟩
    · refine .read .reaped hl.2 (by rw [hpc]; rfl) hn ?_
      rw [hs₁]
      rfl
    · rw [hpc₁]
      rfl
    · rw [hpc₁]
      refine ⟨?_, fun h => absurd rfl h, .inl ⟨rfl, rfl⟩⟩
      show ans.events.toNat = _
      rw [List.length_map, List.length_take]
      omega
  have hrun : Run (next cfg) Orderly (.initial cfg env) (ls₀ ++ [.step p ans]) s₁ :=
    hs.append (.cons hl hn (.nil _))
  obtain ⟨log, hlog⟩ := eager_run hsync hrun []
  obtain ⟨k, said, plain, h, hr'⟩ := hstart.run (hcons.step hl hn) hknown hsync hr log
  rw [List.append_nil] at hr'
  have hcovers := h.covers
  rw [hacc, hfile] at hcovers
  exact ⟨k, said, plain, log, h.log, h.past, hcovers, hlog, hr'⟩

/-- Two writes on file 5 and one on file 6, completed and about to be read. -/
def twoFiles : List (Label Bool) :=
  submits true ⟨.pwrite, 5, 0, 512, some 1⟩ ++ submits true ⟨.pwrite, 5, 512, 512, some 2⟩ ++
    submits true ⟨.pwrite, 6, 0, 512, some 3⟩ ++
      [.complete 0 512, .complete 0 512, .complete 0 512, .call false .poll, .step false {}]

/-- The poller reads all three, and syncs twice. -/
theorem syncs_safe_three : ∃ s s₁ x : State Bool, ∃ said : List Obs,
    Run (next ⟨3, true, true⟩) Orderly (.sample ⟨3, true, true⟩) twoFiles s ∧
      next ⟨3, true, true⟩ s (.step false { events := 3 }) = some s₁ ∧
      Run (next ⟨3, true, true⟩) (Within false) s₁ (steps false 28) x ∧
      x.log = s₁.log ++ said ∧ (syncedFiles said).length = 2 := by
  obtain ⟨s, hs, hpc, hfile, hl, hnext⟩ := exists_run_of_exec (next ⟨3, true, true⟩) Orderly
    (.sample ⟨3, true, true⟩) twoFiles
    (fun s => s.pc false = .blocked (.getEvents ⟨0, 0, -1, false, 0⟩) ∧
      (s.ring.take 3).map s.file = [some 5, some 5, some 6] ∧
      Orderly s (.step false { events := 3 }) ∧
      ((next ⟨3, true, true⟩ s (.step false { events := 3 })).any fun s₁ =>
        (exec (next ⟨3, true, true⟩) (Within false) s₁ (steps false 28)).any fun x =>
          decide (x.pc false = .blocked (.getEvents ⟨3, 3, 6, false, 0⟩))) = true) (by decide)
  obtain ⟨s₁, hn, hnext⟩ := (Option.any_eq_true _ _).mp hnext
  obtain ⟨x, hr, hx⟩ := exists_run_of_exec _ _ s₁ (steps false 28) _ hnext
  obtain ⟨k, said, plain, log, hlog, hpast, hcovers, -⟩ :=
    syncs_safe (by decide) rfl hs hpc (by decide) hl hn hr
  refine ⟨s, s₁, x, said, hs, hn, hr, hlog, ?_⟩
  have hlen : ((s.ring.take 3).map s.file).length = 3 := by rw [hfile]; rfl
  have hk : k = 3 := by
    rw [hx] at hpast
    rw [List.length_map] at hlen
    exact hpast.trans hlen
  have hruns := hcovers.runs
  rw [show (({ events := 3 } : Answer).events).toNat = 3 from rfl, hfile, hk] at hruns
  rw [hruns]
  decide

end ArtemisNative
