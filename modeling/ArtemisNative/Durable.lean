/-
ArtemisNative/Durable.lean

Writes that are reported as done, and what is on the disk by then.

With `useFdatasync`, `blockedPoll` calls `fdatasync` once for each run of events of
a batch that have the same descriptor, before it looks at the first of them, and
tells a callback about an error only if the result of its event is negative.
`poll(callbacks, ..)` never calls `fdatasync`.

`State.Durable` says that a write that was reported without an error has been
written in full, and that an `fdatasync` of its file has succeeded in between.
There are three ways around it: an `fdatasync` fails and nobody looks at what it
returned, a result is a byte count and too small, or the callback goes into the
array of `poll(callbacks, ..)`.  `Persists` is the discipline that leaves these
three out, each in the state in which the library goes wrong, and
`reported_write_durable` that nothing else does.
-/
import ArtemisNative.Drained

namespace ArtemisNative

open Transition

variable {Tid : Type} [DecidableEq Tid] {cfg : Config} {s s' : State Tid} {t u : Tid}
variable {ans : Answer} {l : Label Tid} {o : ℕ} {a : Submission} {ev : IoEvent} {fd : ℤ}
variable {L : List IoEvent} {f : Frame} {st : Stage}

/-! ### What is reported -/

/-- The request that an observation reports to its callback, or to the caller of
`poll(callbacks, ..)`. -/
def Obs.report? : Obs → Option ℕ
  | .done o _ | .stored o _ _ => some o
  | _ => none

/-- A write that was reported, without an error before, has been written in full
and its file has been synced between the two. -/
def State.Durable (s : State Tid) : Prop :=
  ∀ (o : ℕ) (a : Submission), s.accepted[o]? = some (.user a) → a.opcode = .pwrite →
    ∀ ob ∈ s.log, ob.report? = some o → (∀ c e, ¬[.onError o c e, ob].Sublist s.log) →
      [.completed o a.size, .synced a.fd true, ob].Sublist s.log

namespace State

/-- The file of the request of an event. -/
def file (s : State Tid) (ev : IoEvent) : Option ℤ := (s.accepted[ev.op]?).map Origin.fd

/-- The write that an event lets the library report as done: its result is not
negative, and there is a callback. -/
def success (s : State Tid) (ev : IoEvent) : Option Submission :=
  match s.accepted[ev.op]? with
  | some (.user a) =>
    if a.opcode = .pwrite ∧ a.callback ≠ none ∧ 0 ≤ ev.res then some a else none
  | _ => none

/-- The events at the head of a batch that rest on one `fdatasync`. -/
def run (s : State Tid) (fd : ℤ) (L : List IoEvent) : List IoEvent :=
  L.takeWhile fun e => s.file e = some fd

omit [DecidableEq Tid]

theorem success_eq (ha : s.success ev = some a) :
    s.accepted[ev.op]? = some (.user a) ∧ a.opcode = .pwrite ∧ a.callback ≠ none ∧
      0 ≤ ev.res := by
  unfold success at ha
  split at ha
  · split at ha
    · rename_i a' hacc hcond
      obtain rfl := Option.some.inj ha
      exact ⟨hacc, hcond⟩
    · cases ha
  · cases ha

theorem success_of (hacc : s.accepted[ev.op]? = some (.user a)) (hw : a.opcode = .pwrite)
    (hcb : a.callback ≠ none) (hres : 0 ≤ ev.res) : s.success ev = some a := by
  simp [success, hacc, hw, hcb, hres]

theorem success_of_neg (hres : ev.res < 0) : s.success ev = none := by
  rw [Option.eq_none_iff_forall_ne_some]
  intro a ha
  have := (success_eq ha).2.2.2
  omega

/-- Files and results of accepted requests do not change. -/
theorem file_congr (hk : s'.accepted[ev.op]? = s.accepted[ev.op]?) :
    s'.file ev = s.file ev ∧ s'.success ev = s.success ev := by
  constructor
  · rw [file, file, hk]
  · rw [success, success, hk]

theorem run_congr (hk : ∀ e ∈ L, s'.accepted[e.op]? = s.accepted[e.op]?) :
    s'.run fd L = s.run fd L := by
  induction L with
  | nil => rfl
  | cons e L ih =>
    have hfile := (file_congr (hk e List.mem_cons_self)).1
    have ih := ih fun e he => hk e (List.mem_cons_of_mem _ he)
    rw [run, List.takeWhile_cons, run, List.takeWhile_cons, hfile]
    split
    · exact congrArg (e :: ·) ih
    · rfl

end State

/-! ### The discipline -/

/-- No write is reported that is not on the disk: an `fdatasync` that a write of the
batch rests on does not fail, the result of a write that is not taken for an error
is its size, and `poll(callbacks, ..)` does not return the callback of a write that
has not failed. -/
def Durably (s : State Tid) (ans : Answer) : Pc → Prop
  | .blocked (.event f .sync) =>
    f.lastFile ≠ (s.iocb (s.events f.i).obj).aio_fildes → ans.fdatasync = false →
      ∀ e ∈ s.run (s.iocb (s.events f.i).obj).aio_fildes
        (s.events f.i :: eventsFrom s.events (f.i + 1) f.result), s.success e = none
  | .blocked (.event f .onError) =>
    ∀ a ∈ s.success (s.events f.i), (s.events f.i).res = a.size
  | .poll (.event f .store) => s.success (s.events f.i) = none
  | _ => True

omit [DecidableEq Tid] in
instance (s : State Tid) (ans : Answer) : DecidablePred (Durably s ans)
  | .blocked (.event f .sync) =>
    inferInstanceAs (Decidable (f.lastFile ≠ (s.iocb (s.events f.i).obj).aio_fildes →
      ans.fdatasync = false → ∀ e ∈ s.run (s.iocb (s.events f.i).obj).aio_fildes
        (s.events f.i :: eventsFrom s.events (f.i + 1) f.result), s.success e = none))
  | .blocked (.event f .onError) =>
    inferInstanceAs (Decidable (∀ a ∈ s.success (s.events f.i), (s.events f.i).res = a.size))
  | .poll (.event f .store) => inferInstanceAs (Decidable (s.success (s.events f.i) = none))
  | .idle _ | .submit _ | .close _ | .blocked .lock | .blocked (.getEvents _)
  | .blocked (.unlock _) | .blocked (.event _ .test) | .blocked (.event _ .stop)
  | .blocked (.event _ .take) | .blocked (.event _ (.put _)) | .blocked (.event _ (.done _))
  | .blocked (.event _ (.inDone _)) | .blocked (.event _ (.release _))
  | .blocked (.event _ (.deleteRef _)) | .blocked (.event _ .warn)
  | .poll (.getEvents _ _ _) | .poll (.release _ _ _) | .poll (.event _ .onError)
  | .poll (.event _ .deleteRef) | .poll (.event _ .put) => isTrue trivial

/-- The steps of threads are such. -/
def StepsDurably (s : State Tid) : Label Tid → Prop
  | .step t ans => Durably s ans (s.pc t)
  | _ => True

omit [DecidableEq Tid] in
instance (s : State Tid) : DecidablePred (StepsDurably s)
  | .step t ans => inferInstanceAs (Decidable (Durably s ans (s.pc t)))
  | .call _ _ | .complete _ _ | .redeliver _ | .setForceSyscall _ | .closeDumbHandlers =>
    isTrue trivial

/-- Runs against a kernel that delivers each event once, with callbacks that return
normally, in which no thread reads into a buffer in use and no write is reported
that is not on the disk. -/
def Persists (s : State Tid) (l : Label Tid) : Prop :=
  (Orderly s l ∧ Smooth l) ∧ StepsDurably s l

instance [Fintype Tid] (s : State Tid) : DecidablePred (Persists s) := fun _ =>
  inferInstanceAs (Decidable ((_ ∧ _) ∧ _))

/-! ### What an fdatasync is good for -/

/-- The last `fdatasync` of the batch was on file `fd`: for all events of the batch
it came after their completion; or it failed, and the events that rest on it
report no write; or there has been none. -/
def State.Safe (s : State Tid) (fd : ℤ) (L : List IoEvent) : Prop :=
  fd = -1 ∨ (∀ e ∈ L, [.completed e.op e.res, .synced fd true].Sublist s.log) ∨
    ∀ e ∈ s.run fd L, s.success e = none

/-- What is known about the event at hand, and about the rest of the batch. -/
def State.Guarded (s : State Tid) (f : Frame) : Stage → Prop
  | .test => s.Safe f.lastFile (eventsFrom s.events f.i f.result)
  | .stop => True
  | .sync => s.Safe f.lastFile (s.events f.i :: eventsFrom s.events (f.i + 1) f.result)
  | .onError =>
    s.Safe f.lastFile (eventsFrom s.events (f.i + 1) f.result) ∧
      ∀ a ∈ s.success (s.events f.i),
        [.completed (s.events f.i).op (s.events f.i).res, .synced a.fd true].Sublist s.log
  | .take | .put _ | .done _ =>
    s.Safe f.lastFile (eventsFrom s.events (f.i + 1) f.result) ∧
      ∀ a ∈ s.success (s.events f.i),
        [.completed (s.events f.i).op a.size, .synced a.fd true].Sublist s.log
  | .inDone _ | .release _ | .deleteRef _ | .warn =>
    s.Safe f.lastFile (eventsFrom s.events (f.i + 1) f.result)

namespace State

omit [DecidableEq Tid]

theorem Safe.mono (h : s.Safe fd L) (hk : ∀ e ∈ L, s'.accepted[e.op]? = s.accepted[e.op]?)
    (hlog : s.log <+: s'.log) : s'.Safe fd L := by
  rcases h with h | h | h
  · exact .inl h
  · exact .inr (.inl fun e he => (h e he).trans hlog.sublist)
  · refine .inr (.inr fun e he => ?_)
    rw [run_congr hk] at he
    rw [(file_congr (hk e ((List.takeWhile_prefix _).subset he))).2]
    exact h e he

theorem Safe.tail (h : s.Safe fd (ev :: L)) (hfile : s.file ev = some fd) : s.Safe fd L := by
  rcases h with h | h | h
  · exact .inl h
  · exact .inr (.inl fun e he => h e (List.mem_cons_of_mem _ he))
  · refine .inr (.inr fun e he => h e ?_)
    rw [run, List.takeWhile_cons_of_pos (by simpa using hfile)]
    exact List.mem_cons_of_mem _ he

/-- The event at hand is one that the last `fdatasync` is good for. -/
theorem Safe.head (h : s.Safe fd (ev :: L)) (hfile : s.file ev = some fd) (hpos : 0 ≤ fd)
    (ha : s.success ev = some a) :
    [.completed ev.op ev.res, .synced a.fd true].Sublist s.log := by
  have hfd : a.fd = fd := by
    rw [file, (success_eq ha).1] at hfile
    exact Option.some.inj hfile
  rcases h with h | h | h
  · omega
  · rw [hfd]
    exact h ev List.mem_cons_self
  · have hnone := h ev (by
      rw [run, List.takeWhile_cons_of_pos (by simpa using hfile)]
      exact List.mem_cons_self)
    rw [hnone] at ha
    cases ha

/-- An `fdatasync` has just been called. -/
theorem Safe.synced {ok : Bool} (hlog : s'.log = s.log ++ [Obs.synced fd ok])
    (hacc : s'.accepted = s.accepted) (hdone : ∀ e ∈ L, .completed e.op e.res ∈ s.log)
    (hfail : ok = false → ∀ e ∈ s.run fd L, s.success e = none) : s'.Safe fd L := by
  cases ok with
  | true =>
    refine .inr (.inl fun e he => ?_)
    rw [hlog]
    exact (List.singleton_sublist.mpr (hdone e he)).append (List.Sublist.refl [Obs.synced fd true])
  | false =>
    refine .inr (.inr fun e he => ?_)
    have hsame : ∀ e : IoEvent, s'.accepted[e.op]? = s.accepted[e.op]? := fun e => by rw [hacc]
    rw [run_congr fun e _ => hsame e] at he
    rw [(file_congr (hsame e)).2]
    exact hfail rfl e he

/-- Nothing is taken away as the log grows. -/
theorem Guarded.mono (h : s.Guarded f st) (hev : s'.events = s.events)
    (hk : ∀ k φ, (k, φ) ∈ st.phases s.events f → s'.accepted[k]? = s.accepted[k]?)
    (hlog : s.log <+: s'.log) : s'.Guarded f st := by
  have hmem : ∀ {i : ℕ} {e : IoEvent}, e ∈ eventsFrom s.events i f.result →
      (e.op, Phase.reaped e.res) ∈ (eventsFrom s.events i f.result).map (·.at .reaped) :=
    fun he => List.mem_map_of_mem (f := fun e : IoEvent => e.at .reaped) he
  cases st with
  | test =>
    rw [Guarded, hev]
    exact Safe.mono h (fun e he => hk _ _ (hmem he)) hlog
  | stop => trivial
  | sync =>
    rw [Guarded, hev]
    refine Safe.mono h (fun e he => ?_) hlog
    rcases List.mem_cons.mp he with rfl | he
    · exact hk _ _ List.mem_cons_self
    · exact hk _ _ (List.mem_cons_of_mem _ (hmem he))
  | onError | take | put obj | done obj =>
    rw [Guarded, hev]
    refine ⟨Safe.mono h.1 (fun e he => hk _ _ (List.mem_cons_of_mem _ (hmem he))) hlog, ?_⟩
    rw [(file_congr (hk _ _ List.mem_cons_self)).2]
    exact fun a ha => (h.2 a ha).trans hlog.sublist
  | inDone obj | release obj | warn =>
    rw [Guarded, hev]
    exact Safe.mono h (fun e he => hk _ _ (List.mem_cons_of_mem _ (hmem he))) hlog
  | deleteRef obj =>
    rw [Guarded, hev]
    exact Safe.mono h (fun e he => hk _ _ (hmem he)) hlog

end State

/-! ### The batch of a thread -/

omit [DecidableEq Tid] in
/-- The requests in transit have been accepted. -/
theorem Coherent.accepted_of_phase {q : Option Tid} {k : ℕ} {φ : Phase} (h : Coherent cfg s)
    (hφ : (k, φ) ∈ s.phases q) : k < s.accepted.length := by
  obtain ⟨g, hg, -, -⟩ := Tracks.logged h.tracked q k φ hφ
  exact (List.getElem?_eq_some_iff.mp hg).1

/-- Requests are on open files. -/
theorem next_open (hmat : Matched s) (hopen : ∀ g ∈ s.accepted, 0 ≤ g.fd)
    (hn : next cfg s l = some s') : ∀ g ∈ s'.accepted, 0 ≤ g.fd := by
  intro g hg
  rcases next_accepted hn with hacc | ⟨t, a, b, hpc, hfd, hacc⟩ | ⟨t, b, hpc, hfd, -, hacc⟩
  · exact hopen g (hacc ▸ hg)
  · rw [hacc] at hg
    rcases List.mem_append.mp hg with hg | hg
    · exact hopen g hg
    · obtain rfl := List.mem_singleton.mp hg
      obtain ⟨fd, hfit⟩ := hmat.prepared t (some a) b (by rw [State.view, hpc]; rfl)
      exact hfit.fd_eq ▸ hfd
  · rw [hacc] at hg
    rcases List.mem_append.mp hg with hg | hg
    · exact hopen g hg
    · obtain rfl := List.mem_singleton.mp hg
      exact hfd

/-- What is known in a thread. -/
def State.Guards (s : State Tid) : Pc → Prop
  | .blocked (.event f st) => s.Guarded f st
  | _ => True

theorem State.Guards.goto {q : Pc} (hpc : s'.pc = Function.update s.pc t q) (hq : s'.Guards q) :
    s'.Guards (s'.pc t) := by
  rw [hpc, Function.update_self]
  exact hq

/-- What is known about a batch carries a thread through it. -/
theorem State.Guarded.event (h : s.Guarded f st) (hcoh : Coherent cfg s)
    (hopen : ∀ g ∈ s.accepted, 0 ≤ g.fd) (hsync : cfg.useFdatasync = true)
    (hpc : s.pc t = .blocked (.event f st)) (hd : Durably s ans (.blocked (.event f st)))
    (hm : EventMoves cfg s t ans f st s') : s'.Guards (s'.pc t) := by
  have hbatch : st = .sync → (s.view t).batch
      = s.events f.i :: eventsFrom s.events (f.i + 1) f.result := by
    rintro rfl
    rw [State.view, hpc]
    rfl
  -- an observation more does no harm
  have hsaid : ∀ (f : Frame) (st : Stage) {obs : List Obs}, s.Guarded f st →
      (s.record obs).Guarded f st := fun _ _ _ h =>
    h.mono rfl (fun _ _ _ => rfl) (List.prefix_append _ _)
  cases hm with
  | isStop hlt hfd => exact Guards.goto rfl trivial
  | isEvent hlt hfd =>
    refine Guards.goto rfl ?_
    show s.Safe _ _
    rw [← eventsFrom_of_lt hlt]
    exact h
  | batchEnd hle => exact Guards.goto rfl trivial
  | stopped => exact Guards.goto rfl trivial
  | synced _ hne =>
    have hphases : s.phases (some t) = (s.events f.i).at .handling ::
        (eventsFrom s.events (f.i + 1) f.result).map (·.at .reaped) := by
      rw [State.phases, hpc]
      rfl
    obtain ⟨g, hg, hfit⟩ := hcoh.matched.at_hand (hbatch rfl)
    -- the whole rest of the batch was completed before
    have hdone : ∀ e ∈ s.events f.i :: eventsFrom s.events (f.i + 1) f.result,
        .completed e.op e.res ∈ s.log := by
      intro e he
      have hφ : ∃ φ : Phase, (e.op, φ) ∈ s.phases (some t) ∧
          (φ = .handling e.res ∨ φ = .reaped e.res) := by
        rw [hphases]
        rcases List.mem_cons.mp he with rfl | he
        · exact ⟨_, List.mem_cons_self, .inl rfl⟩
        · exact ⟨_, List.mem_cons_of_mem _ (List.mem_map_of_mem he), .inr rfl⟩
      obtain ⟨φ, hφ, hcase⟩ := hφ
      obtain ⟨g, -, -, hlog⟩ := Tracks.logged hcoh.tracked _ _ _ hφ
      have hmem : Obs.completed e.op e.res ∈ about Obs.op? e.op s.log := by
        rw [hlog]
        rcases hcase with rfl | rfl <;> exact List.mem_cons_self
      exact (List.mem_filter.mp hmem).1
    have hfile : s.file (s.events f.i) = some (s.iocb (s.events f.i).obj).aio_fildes := by
      rw [State.file, hg, hfit.fd_eq]
      rfl
    have hsafe : (s.record [.synced (s.iocb (s.events f.i).obj).aio_fildes ans.fdatasync]).Safe
        (s.iocb (s.events f.i).obj).aio_fildes
        (s.events f.i :: eventsFrom s.events (f.i + 1) f.result) :=
      Safe.synced rfl rfl hdone fun hfail => hd hne hfail
    have hpos : 0 ≤ (s.iocb (s.events f.i).obj).aio_fildes := by
      rw [hfit.fd_eq]
      exact hopen g (List.mem_of_getElem? hg)
    exact Guards.goto rfl ⟨hsafe.tail hfile, fun a ha => hsafe.head hfile hpos ha⟩
  | notSynced hsame =>
    obtain ⟨g, hg, hfit⟩ := hcoh.matched.at_hand (hbatch rfl)
    have hfile : s.file (s.events f.i) = some f.lastFile := by
      rw [State.file, hg, hsame hsync, hfit.fd_eq]
      rfl
    have hpos : 0 ≤ f.lastFile := by
      rw [hsame hsync, hfit.fd_eq]
      exact hopen g (List.mem_of_getElem? hg)
    have hsafe : s.Safe f.lastFile (s.events f.i :: eventsFrom s.events (f.i + 1) f.result) := h
    exact Guards.goto rfl ⟨hsafe.tail hfile, fun a ha => hsafe.head hfile hpos ha⟩
  | noError hres =>
    refine Guards.goto rfl ⟨h.1, fun a ha => ?_⟩
    rw [← hd a ha]
    exact h.2 a ha
  | errorNull hres _ | errorSkipped hres _ _ =>
    refine Guards.goto rfl ⟨h.1, fun a ha => ?_⟩
    have hno : s.success (s.events f.i) = none := success_of_neg hres
    cases hno.symm.trans ha
  | errorCalled hres _ =>
    refine Guards.goto rfl ?_
    refine hsaid f .take ⟨h.1, fun a ha => ?_⟩
    rw [success_of_neg hres] at ha
    cases ha
  | takenNull _ => exact Guards.goto rfl h.1
  | taken _ => exact Guards.goto rfl h
  | put obj => exact Guards.goto rfl (hsaid f (.done obj) h)
  | doneSkipped obj _ => exact Guards.goto rfl h.1
  | doneCalled obj => exact Guards.goto rfl (hsaid f (.inDone obj) h.1)
  | doneThrew obj _ => exact Guards.goto rfl h
  | doneReturned obj _ => exact Guards.goto rfl (hsaid f (.release obj) h)
  | released obj _ => exact Guards.goto rfl (hsaid f (.deleteRef obj) h)
  | notReleased obj _ => exact Guards.goto rfl h
  | refDeleted obj => exact Guards.goto rfl h
  | warned =>
    exact Guards.goto rfl (hsaid { f with i := f.i + 1 } .test h)

theorem State.Guards.step (h : ∀ u, s.Guards (s.pc u)) (hcoh : Coherent cfg s)
    (hopen : ∀ g ∈ s.accepted, 0 ≤ g.fd) (hsync : cfg.useFdatasync = true)
    (hal : ReadsAlone s l) (hd : StepsDurably s l) (hn : next cfg s l = some s') (u : Tid) :
    s'.Guards (s'.pc u) := by
  by_cases hl : l.tid? = some u
  · cases next_moves hn with
    | call t o m _ hpc hm =>
      obtain rfl := Option.some.inj hl
      cases hm <;> exact Guards.goto rfl trivial
    | submit t ans q _ hpc hm =>
      obtain rfl := Option.some.inj hl
      cases hm <;> exact Guards.goto rfl trivial
    | blocked t ans q _ hpc hm =>
      obtain rfl := Option.some.inj hl
      cases hm with
      | locked _ | readFailed f _ | unlocked o => exact Guards.goto rfl trivial
      | readInterrupted f _ => exact h t
      | read f k _ _ => exact Guards.goto rfl (.inl rfl)
      | event f st _ hm =>
        have ht := h t
        have hd' : Durably s ans (s.pc t) := hd
        rw [hpc] at ht hd'
        exact Guarded.event ht hcoh hopen hsync hpc hd' hm
    | poll t ans q _ hpc hm =>
      obtain rfl := Option.some.inj hl
      cases hm <;> exact Guards.goto rfl trivial
    | close t ans q _ hpc hm =>
      obtain rfl := Option.some.inj hl
      cases hm <;> exact Guards.goto rfl trivial
    | complete k res r hr _ => cases hl
    | redeliver k ev _ => cases hl
    | setForceSyscall value => cases hl
    | closeDumbHandlers => cases hl
  · have hu := h u
    rw [next_pc_of_ne hn hl]
    rcases hpc : s.pc u with q | q | q | q | q
    · trivial
    · trivial
    · cases q with
      | event f st =>
        rw [hpc] at hu
        refine Guarded.mono hu (next_events hal hn (by rw [hpc]; rfl) hl) (fun k φ hφ => ?_)
          (next_appends hn).2
        have hk : (k, φ) ∈ s.phases (some u) := by
          rw [State.phases, hpc]
          exact hφ
        have hget := List.getElem?_eq_getElem (hcoh.accepted_of_phase hk)
        rw [hget, getElem?_of_isPrefix (next_appends hn).1 hget]
      | _ => trivial
    · trivial
    · trivial

/-! ### Reports -/

theorem Obs.op_of_report {ob : Obs} (h : ob.report? = some o) : ob.op? = some o := by
  cases ob with
  | done o' c => exact h
  | stored o' c i => exact h
  | _ => cases h

/-- The observations of a step: no report, a call of `done`, or a callback that
goes into the array. -/
inductive Reports (s : State Tid) (l : Label Tid) : List Obs → Prop
  | nothing (obs) (h : ∀ ob ∈ obs, ob.report? = none) : Reports s l obs
  | done (t : Tid) (f : Frame) (obj : IocbData) (hpc : s.pc t = .blocked (.event f (.done obj))) :
      Reports s l [.done (s.events f.i).op (s.refs.deref obj)]
  | stored (t : Tid) (ans : Answer) (f : PollFrame) (hl : l = .step t ans)
      (hpc : s.pc t = .poll (.event f .store))
      (hnull : (s.iocb (s.events f.i).obj).data ≠ .null)
      (hstop : (s.iocb (s.events f.i).obj).data ≠ .stop) :
      Reports s l [.stored (s.events f.i).op
        (s.refs.deref (s.iocb (s.events f.i).obj).data) f.i]

theorem next_report (hn : next cfg s l = some s') :
    ∃ obs, s'.log = s.log ++ obs ∧ Reports s l obs := by
  have hquiet : ∃ obs, s.log = s.log ++ obs ∧ Reports s l obs :=
    ⟨[], (List.append_nil _).symm, .nothing _ nofun⟩
  have hone : ∀ ob : Obs, ob.report? = none →
      ∃ obs, s.log ++ [ob] = s.log ++ obs ∧ Reports s l obs := fun ob hob =>
    ⟨_, rfl, .nothing _ fun ob' hob' => List.mem_singleton.mp hob' ▸ hob⟩
  have hread : ∀ (obs : ℕ → Obs) (k : ℕ), (∀ o, (obs o).report? = none) →
      ∃ obs', (s.getEvents k obs).log = s.log ++ obs' ∧ Reports s l obs' := by
    refine fun obs k hobs => ⟨_, rfl, .nothing _ fun ob hob => ?_⟩
    obtain ⟨e, -, rfl⟩ := List.mem_map.mp hob
    exact hobs e.op
  cases next_moves hn with
  | call t o m _ hpc hm => cases hm <;> exact hquiet
  | submit t ans q _ hpc hm => cases hm <;> exact hquiet
  | blocked t ans q _ hpc hm =>
    cases hm with
    | read f k _ _ => exact hread .reaped k fun _ => rfl
    | event f st _ hm =>
      cases hm with
      | stopped =>
        refine ⟨_, rfl, .nothing _ fun ob hob => ?_⟩
        rcases List.mem_cons.mp hob with rfl | hob
        · rfl
        · obtain ⟨j, -, rfl⟩ := List.mem_map.mp hob
          rfl
      | synced _ _ | errorCalled _ _ | put _ | doneReturned _ _ | released _ _ | warned =>
        exact hone _ rfl
      | doneCalled obj => exact ⟨_, rfl, .done t f obj hpc⟩
      | _ => exact hquiet
    | _ => exact hquiet
  | poll t ans q _ hpc hm =>
    cases hm with
    | read _ _ _ k _ _ => exact hread .polled k fun _ => rfl
    | stored f hnull hstop _ => exact ⟨_, rfl, .stored t ans f rfl hpc hnull hstop⟩
    | errorCalled _ _ _ _ _ | put _ | released _ _ _ _ => exact hone _ rfl
    | _ => exact hquiet
  | close t ans q _ hpc hm =>
    cases hm with
    | read k _ _ => exact hread .discarded k fun _ => rfl
    | _ => exact hquiet
  | complete k res r hr _ => exact hone _ rfl
  | redeliver k ev _ => exact hquiet
  | setForceSyscall value => exact hquiet
  | closeDumbHandlers => exact hquiet

omit [DecidableEq Tid] in
/-- What the log says about a request at hand. -/
theorem Coherent.at_phase {q : Option Tid} {φ : Phase} (h : Coherent cfg s)
    (hφ : (o, φ) ∈ s.phases q) (ho : s.accepted[o]? = some (.user a)) :
    φ.Needs s.dumbWriteHandler (.user a) ∧ ∀ ob ∈ φ.script cfg (.user a) o, ob ∈ s.log := by
  obtain ⟨g, hg, hneeds, hlog⟩ := Tracks.logged h.tracked q o φ hφ
  obtain rfl := Option.some.inj (hg.symm.trans ho)
  refine ⟨hneeds, fun ob hob => ?_⟩
  rw [← hlog] at hob
  exact (List.mem_filter.mp hob).1

/-- **Every step keeps what was reported durable.** -/
theorem State.Durable.step (h : s.Durable) (hcoh : Coherent cfg s)
    (hguard : ∀ u, s.Guards (s.pc u)) (hd : StepsDurably s l) (hn : next cfg s l = some s') :
    s'.Durable := by
  intro o a ho' hw ob hob hrep hno
  obtain ⟨obs, hlog, hreports⟩ := next_report hn
  obtain ⟨hacc, hprefix⟩ := next_appends hn
  -- a request that is reported was accepted before
  have hold : o < s.accepted.length → s.accepted[o]? = some (.user a) := by
    intro hlt
    have hget := List.getElem?_eq_getElem hlt
    exact hget.trans ((getElem?_of_isPrefix hacc hget).symm.trans ho')
  have herror : ∀ c e, .onError o c e ∈ s.log → ob ∈ obs → False := by
    intro c e hmem hob
    apply hno c e
    rw [hlog]
    exact (List.singleton_sublist.mpr hmem).append (List.singleton_sublist.mpr hob)
  rw [hlog] at hob
  rcases List.mem_append.mp hob with hmem | hnew
  · have ho := hold (hcoh.lt_of_mem hmem (Obs.op_of_report hrep))
    exact (h o a ho hw ob hmem hrep fun c e hsub => hno c e (hsub.trans hprefix.sublist)).trans
      hprefix.sublist
  · cases hreports with
    | nothing _ hquiet =>
      rw [hquiet ob hnew] at hrep
      cases hrep
    | done t f obj hpc =>
      obtain rfl := List.mem_singleton.mp hnew
      obtain rfl : (s.events f.i).op = o := Option.some.inj hrep
      have hφ : ((s.events f.i).op, Phase.putBack (s.events f.i).res) ∈ s.phases (some t) := by
        rw [State.phases, hpc]
        exact List.mem_cons_self
      have ho := hold (hcoh.accepted_of_phase hφ)
      obtain ⟨hneeds, hscript⟩ := hcoh.at_phase hφ ho
      by_cases hres : (s.events f.i).res < 0
      · refine (herror a.callback (-(s.events f.i).res) (hscript _ ?_) hnew).elim
        simp [Phase.script, Origin.notice, hres, hneeds.2, Origin.callback]
      · have hcb : a.callback ≠ none :=
          Option.isSome_iff_ne_none.mp (Option.isNone_eq_false_iff.mp hneeds.2)
        have hg := hguard t
        rw [hpc] at hg
        have hsub := hg.2 a (State.success_of ho hw hcb (not_lt.mp hres))
        rw [hlog]
        exact hsub.append (List.Sublist.refl [_])
    | stored t ans f hl hpc hnull hstop =>
      obtain rfl := List.mem_singleton.mp hnew
      obtain rfl : (s.events f.i).op = o := Option.some.inj hrep
      have hφ : ((s.events f.i).op, Phase.pollNoticed (s.events f.i).res) ∈ s.phases (some t) := by
        rw [State.phases, hpc]
        exact List.mem_cons_self
      have ho := hold (hcoh.accepted_of_phase hφ)
      obtain ⟨-, hscript⟩ := hcoh.at_phase hφ ho
      obtain ⟨g, hg, hfit⟩ := hcoh.matched.at_hand (show (s.view t).batch
          = s.events f.i :: eventsFrom s.events (f.i + 1) f.result by rw [State.view, hpc]; rfl)
      obtain rfl := Option.some.inj (hg.symm.trans ho)
      have hcb : a.callback ≠ none := hfit.1.callback_iff.mp ⟨hnull, hstop⟩
      -- the write has failed, so its callback was told
      have hnone : s.success (s.events f.i) = none := by
        subst hl
        have hd' : Durably s ans (s.pc t) := hd
        rw [hpc] at hd'
        exact hd'
      have hres : (s.events f.i).res < 0 := by
        by_contra hres
        cases (State.success_of ho hw hcb (not_lt.mp hres)).symm.trans hnone
      refine (herror a.callback (-(s.events f.i).res) (hscript _ ?_) hnew).elim
      simp [Phase.script, Origin.pollNotice, hres, hcb, Origin.callback]

/-- All that holds of a run in which nothing is reported too early. -/
structure Persistent (cfg : Config) (s : State Tid) : Prop where
  coherent : Coherent cfg s
  opened : ∀ g ∈ s.accepted, 0 ≤ g.fd
  guarded : ∀ u, s.Guards (s.pc u)
  durable : s.Durable

theorem Persistent.step (h : Persistent cfg s) (hsync : cfg.useFdatasync = true)
    (hl : Persists s l) (hn : next cfg s l = some s') : Persistent cfg s' := by
  obtain ⟨⟨⟨honce, hal⟩, hsm⟩, hd⟩ := hl
  exact ⟨h.coherent.step hsm honce hal hn, next_open h.coherent.matched h.opened hn,
    State.Guards.step h.guarded h.coherent h.opened hsync hal hd hn,
    h.durable.step h.coherent h.guarded hd hn⟩

omit [DecidableEq Tid] in
theorem Persistent.initial (hq : 0 < cfg.queueSize) (env : Process) :
    Persistent cfg (.initial cfg env : State Tid) where
  coherent := .initial hq env
  opened := by simp [State.initial]
  guarded := fun _ => trivial
  durable := by simp [State.Durable, State.initial]

/-- **A write that was reported is on the disk**, in every run in which no
`fdatasync` fails that a write rests on, no write is short, and
`poll(callbacks, ..)` does not return the callback of a write that has not failed. -/
theorem reported_write_durable {env : Process} (hq : 0 < cfg.queueSize)
    (hsync : cfg.useFdatasync = true) (hr : Reaches (next cfg) Persists (.initial cfg env) s) :
    s.Durable := by
  have h : Persistent cfg s := hr.invariant (.initial hq env) fun _ _ _ h hl hn =>
    h.step hsync hl hn
  exact h.durable

/-- A write of 512 bytes is submitted and `res` is its result; `blockedPoll` handles
it up to the call of `done`, with the answer `sync` of `fdatasync`. -/
def blockedWrite (res : ℤ) (sync : Bool) : List (Label Bool) :=
  submits false ⟨.pwrite, 5, 0, 512, some 1⟩ ++
    [.complete 0 res, .call true .poll, .step true {}, .step true { events := 1 },
      .step true {}, .step true { fdatasync := sync }] ++ steps true 4

/-- The same write, for `poll(callbacks, 1, 1)`. -/
def polledWrite : List (Label Bool) :=
  submits false ⟨.pwrite, 5, 0, 512, some 1⟩ ++
    [.complete 0 512, .call true (.pollInto [none] 1 1), .step true { events := 1 }] ++
    steps true 2

theorem reported_write_durable_full : ∃ s : State Bool,
    Reaches (next ⟨1, true, true⟩) Persists (.sample ⟨1, true, true⟩) s ∧
      .done 0 (some 1) ∈ s.log ∧
      [.completed 0 512, .synced 5 true, .done 0 (some 1)].Sublist s.log := by
  obtain ⟨s, hr, hacc, hlog⟩ := exists_of_exec (next ⟨1, true, true⟩) Persists
    (.sample ⟨1, true, true⟩) (blockedWrite 512 true)
    (fun s : State Bool => s.accepted = [.user ⟨.pwrite, 5, 0, 512, some 1⟩] ∧
      s.log = [.completed 0 512, .reaped 0, .synced 5 true, .putBack 0, .done 0 (some 1)])
    (by decide)
  have hdurable := reported_write_durable (by decide) rfl hr
  refine ⟨s, hr, by simp [hlog], hdurable 0 ⟨.pwrite, 5, 0, 512, some 1⟩ (by rw [hacc]; rfl) rfl _
    (by simp [hlog]) rfl fun c e hsub => ?_⟩
  have hmem := hsub.subset (List.mem_cons_self (a := Obs.onError 0 c e))
  simp [hlog] at hmem

omit [DecidableEq Tid] in
/-- A write that was reported with nothing said about an error, and was not synced
after its completion. -/
theorem State.not_durable {ob : Obs} (hacc : s.accepted[o]? = some (.user a))
    (hw : a.opcode = .pwrite) (hob : ob ∈ s.log) (hrep : ob.report? = some o)
    (hno : ∀ c e, Obs.onError o c e ∉ s.log)
    (hsub : ¬[.completed o a.size, .synced a.fd true, ob].Sublist s.log) : ¬s.Durable := by
  intro h
  refine hsub (h o a hacc hw ob hob hrep fun c e hs => hno c e ?_)
  exact hs.subset List.mem_cons_self

/-- A write is reported though its `fdatasync` has failed; one is reported that has
written half of its bytes; and one is returned by `poll(callbacks, ..)` without any
`fdatasync`. -/
theorem success_without_fdatasync :
    (∃ s : State Bool, Reaches (next ⟨1, true, true⟩) (fun s l => Orderly s l ∧ Smooth l)
      (.sample ⟨1, true, true⟩) s ∧
      s.log = [.completed 0 512, .reaped 0, .synced 5 false, .putBack 0, .done 0 (some 1)] ∧
      ¬s.Durable) ∧
    (∃ s : State Bool, Reaches (next ⟨1, true, true⟩) (fun s l => Orderly s l ∧ Smooth l)
      (.sample ⟨1, true, true⟩) s ∧
      s.log = [.completed 0 256, .reaped 0, .synced 5 true, .putBack 0, .done 0 (some 1)] ∧
      ¬s.Durable) ∧
    ∃ s : State Bool, Reaches (next ⟨1, true, true⟩) (fun s l => Orderly s l ∧ Smooth l)
      (.sample ⟨1, true, true⟩) s ∧
      s.log = [.completed 0 512, .polled 0, .stored 0 (some 1) 0] ∧ ¬s.Durable := by
  refine ⟨?_, ?_, ?_⟩
  · obtain ⟨s, hr, hacc, hlog⟩ := exists_of_exec (next ⟨1, true, true⟩)
      (fun s l => Orderly s l ∧ Smooth l) (.sample ⟨1, true, true⟩) (blockedWrite 512 false)
      (fun s : State Bool => s.accepted = [.user ⟨.pwrite, 5, 0, 512, some 1⟩] ∧
        s.log = [.completed 0 512, .reaped 0, .synced 5 false, .putBack 0, .done 0 (some 1)])
      (by decide)
    refine ⟨s, hr, hlog, State.not_durable (o := 0) (by rw [hacc]; rfl) rfl
      (hlog ▸ by decide : Obs.done 0 (some 1) ∈ s.log) rfl (by simp [hlog]) ?_⟩
    rw [hlog]
    decide
  · obtain ⟨s, hr, hacc, hlog⟩ := exists_of_exec (next ⟨1, true, true⟩)
      (fun s l => Orderly s l ∧ Smooth l) (.sample ⟨1, true, true⟩) (blockedWrite 256 true)
      (fun s : State Bool => s.accepted = [.user ⟨.pwrite, 5, 0, 512, some 1⟩] ∧
        s.log = [.completed 0 256, .reaped 0, .synced 5 true, .putBack 0, .done 0 (some 1)])
      (by decide)
    refine ⟨s, hr, hlog, State.not_durable (o := 0) (by rw [hacc]; rfl) rfl
      (hlog ▸ by decide : Obs.done 0 (some 1) ∈ s.log) rfl (by simp [hlog]) ?_⟩
    rw [hlog]
    decide
  · obtain ⟨s, hr, hacc, hlog⟩ := exists_of_exec (next ⟨1, true, true⟩)
      (fun s l => Orderly s l ∧ Smooth l) (.sample ⟨1, true, true⟩) polledWrite
      (fun s : State Bool => s.accepted = [.user ⟨.pwrite, 5, 0, 512, some 1⟩] ∧
        s.log = [.completed 0 512, .polled 0, .stored 0 (some 1) 0]) (by decide)
    refine ⟨s, hr, hlog, State.not_durable (o := 0) (by rw [hacc]; rfl) rfl
      (hlog ▸ by decide : Obs.stored 0 (some 1) 0 ∈ s.log) rfl (by simp [hlog]) ?_⟩
    rw [hlog]
    decide

end ArtemisNative
