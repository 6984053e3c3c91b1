/-
ArtemisNative/Threads.lean

Which threads are inside which methods.

A step moves one thread.  Whether a thread polls, or tears the context down,
can be read off its program counter, and changes only by a call or by its own
steps; so assumptions on the callers become invariants of the run:

* `OnePoller p`      — only thread `p` calls `poll()` or `poll(callbacks, ..)`;
* `UpToSentinel`     — the run ends where `deleteContext` has submitted the
                       sentinel and is about to wait for `pollLock`;
* `DeliversOnce`     — the kernel delivers no event twice;
* `BlockedOnly`      — nobody calls `poll(callbacks, ..)`.

The buffer `control->events` is shared by all threads of a context, so a read
is harmless only when no other thread is in the loop over a batch
(`ReadsAlone`).  Up to the sentinel a single poller reads alone, and so do any
number of threads that call `poll()`, since `blockedPoll` holds `pollLock`.
-/
import ArtemisNative.Moves
import Mathlib.Data.Fintype.Basic

namespace ArtemisNative

open Transition

variable {Tid : Type} [DecidableEq Tid] {cfg : Config} {s s' : State Tid} {t u p : Tid}
variable {ans : Answer} {l : Label Tid}

/-! ### One thread moves -/

/-- The thread a label moves. -/
def Label.tid? : Label Tid → Option Tid
  | .call t _ | .step t _ => some t
  | _ => none

/-- The calls and steps of thread `t`. -/
def Label.isOf (t : Tid) (l : Label Tid) : Bool := l.tid? = some t

theorem EventMoves.pc_of_ne {f : Frame} {st : Stage} (hm : EventMoves cfg s t ans f st s')
    (hu : u ≠ t) : s'.pc u = s.pc u := by
  cases hm <;> exact Function.update_of_ne hu _ _

/-- Where the thread goes. -/
theorem State.pc_goto (s : State Tid) (t : Tid) (q : Pc) : (s.goto t q).pc t = q :=
  Function.update_self _ _ _

/-- A thread is the one that moved, or where it was. -/
theorem pc_cases {q : Pc} (hpc : s'.pc = Function.update s.pc t q) (u : Tid) :
    (u = t ∧ s'.pc u = q) ∨ (u ≠ t ∧ s'.pc u = s.pc u) := by
  by_cases hut : u = t
  · subst hut
    exact .inl ⟨rfl, by rw [hpc, Function.update_self]⟩
  · exact .inr ⟨hut, by rw [hpc, Function.update_of_ne hut]⟩

/-- The other threads stay where they are. -/
theorem next_pc_of_ne (hn : next cfg s l = some s') (hu : l.tid? ≠ some u) :
    s'.pc u = s.pc u := by
  have hne : ∀ t : Tid, some t ≠ some u → u ≠ t := fun t h he => h (he ▸ rfl)
  cases next_moves hn with
  | call t o m _ hpc hm => cases hm <;> exact Function.update_of_ne (hne t hu) _ _
  | submit t ans q _ hpc hm => cases hm <;> exact Function.update_of_ne (hne t hu) _ _
  | blocked t ans q _ hpc hm =>
    cases hm with
    | readInterrupted f _ => rfl
    | event f st _ hm => exact hm.pc_of_ne (hne t hu)
    | _ => exact Function.update_of_ne (hne t hu) _ _
  | poll t ans q _ hpc hm => cases hm <;> exact Function.update_of_ne (hne t hu) _ _
  | close t ans q _ hpc hm => cases hm <;> exact Function.update_of_ne (hne t hu) _ _
  | complete k res r hr _ => rfl
  | redeliver k ev _ => rfl
  | setForceSyscall value => rfl
  | closeDumbHandlers => rfl

/-- Histories only grow. -/
theorem next_appends (hn : next cfg s l = some s') :
    s.accepted <+: s'.accepted ∧ s.log <+: s'.log := by
  have hsame : s.accepted <+: s.accepted ∧ s.log <+: s.log :=
    ⟨List.prefix_rfl, List.prefix_rfl⟩
  have hsaid : ∀ obs, s.accepted <+: s.accepted ∧ s.log <+: s.log ++ obs := fun obs =>
    ⟨List.prefix_rfl, List.prefix_append _ _⟩
  cases next_moves hn with
  | call t o m _ hpc hm => cases hm <;> exact hsame
  | submit t ans q _ hpc hm =>
    cases hm with
    | accepted a b _ _ => exact ⟨List.prefix_append _ _, List.prefix_rfl⟩
    | _ => exact hsame
  | blocked t ans q _ hpc hm =>
    cases hm with
    | read f k _ _ => exact hsaid _
    | event f st _ hm =>
      cases hm with
      | stopped | synced _ _ | errorCalled _ _ | put _ | doneCalled _ | doneReturned _ _
      | released _ _ | warned => exact hsaid _
      | _ => exact hsame
    | _ => exact hsame
  | poll t ans q _ hpc hm =>
    cases hm with
    | read _ _ _ _ _ _ | errorCalled _ _ _ _ _ | stored _ _ _ _ | put _
    | released _ _ _ _ => exact hsaid _
    | _ => exact hsame
  | close t ans q _ hpc hm =>
    cases hm with
    | accepted b _ _ => exact ⟨List.prefix_append _ _, List.prefix_rfl⟩
    | read k _ _ => exact hsaid _
    | _ => exact hsame
  | complete k res r hr _ => exact hsaid _
  | redeliver k ev _ => exact hsame
  | setForceSyscall value => exact hsame
  | closeDumbHandlers => exact hsame

/-- The stop file is the same until `closeDumbHandlers`. -/
theorem next_handler (hn : next cfg s l = some s') (hl : l ≠ .closeDumbHandlers) :
    s'.dumbWriteHandler = s.dumbWriteHandler := by
  cases next_moves hn with
  | call t o m _ hpc hm => cases hm <;> rfl
  | submit t ans q _ hpc hm => cases hm <;> rfl
  | blocked t ans q _ hpc hm =>
    cases hm with
    | event f st _ hm => cases hm <;> rfl
    | _ => rfl
  | poll t ans q _ hpc hm => cases hm <;> rfl
  | close t ans q _ hpc hm => cases hm <;> rfl
  | complete k res r hr _ => rfl
  | redeliver k ev _ => rfl
  | setForceSyscall value => rfl
  | closeDumbHandlers => exact absurd rfl hl

/-- A request is accepted from a submission or from `deleteContext`. -/
theorem next_accepted (hn : next cfg s l = some s') :
    s'.accepted = s.accepted ∨
    (∃ t a b, s.pc t = .submit (.ioSubmit a b) ∧ 0 ≤ (s.iocb b).aio_fildes ∧
      s'.accepted = s.accepted ++ [.user a]) ∨
    ∃ t b, s.pc t = .close (.ioSubmit b) ∧ 0 ≤ (s.iocb b).aio_fildes ∧
      s'.pc t = .close .lock ∧ s'.accepted = s.accepted ++ [.stop (s.iocb b).aio_fildes] := by
  cases next_moves hn with
  | call t o m _ hpc hm => cases hm <;> exact .inl rfl
  | submit t ans q _ hpc hm =>
    cases hm with
    | accepted a b _ hfd => exact .inr (.inl ⟨t, a, b, hpc, hfd, rfl⟩)
    | _ => exact .inl rfl
  | blocked t ans q _ hpc hm =>
    cases hm with
    | event f st _ hm => cases hm <;> exact .inl rfl
    | _ => exact .inl rfl
  | poll t ans q _ hpc hm => cases hm <;> exact .inl rfl
  | close t ans q _ hpc hm =>
    cases hm with
    | accepted b _ hfd =>
      exact .inr (.inr ⟨t, b, hpc, hfd, Function.update_self _ _ _, rfl⟩)
    | _ => exact .inl rfl
  | complete k res r hr _ => exact .inl rfl
  | redeliver k ev _ => exact .inl rfl
  | setForceSyscall value => exact .inl rfl
  | closeDumbHandlers => exact .inl rfl

/-! ### Methods and phases -/

/-- The thread is inside `poll()` or `poll(callbacks, ..)`. -/
def Pc.polls : Pc → Bool
  | .blocked _ | .poll _ => true
  | _ => false

/-- The thread is inside `deleteContext`, past the wait for the poller. -/
def Pc.tearsDown : Pc → Bool
  | .close .unlock | .close .getEvents | .close (.put _ _) | .close .queueRelease
  | .close .destroy | .close .free => true
  | _ => false

/-- The thread is in the loop over a batch, so it reads `control->events`. -/
def Pc.inBatch : Pc → Bool
  | .blocked (.event _ _) | .poll (.event _ _) | .close (.put _ _) => true
  | _ => false

/-- The next step of the thread is a call of `ringio_get_events`. -/
def Pc.atRead : Pc → Bool
  | .blocked (.getEvents _) | .poll (.getEvents _ _ _) | .close .getEvents => true
  | _ => false

theorem Pc.polls_or_tearsDown_of_inBatch {q : Pc} (h : q.inBatch = true) :
    q.polls = true ∨ q.tearsDown = true := by
  cases q with
  | idle o => cases h
  | submit q => cases h
  | blocked q => exact .inl rfl
  | poll q => exact .inl rfl
  | close q =>
    cases q with
    | put i result => exact .inr rfl
    | _ => cases h

theorem Pc.polls_or_tearsDown_of_atRead {q : Pc} (h : q.atRead = true) :
    q.polls = true ∨ q.tearsDown = true := by
  cases q with
  | idle o => cases h
  | submit q => cases h
  | blocked q => exact .inl rfl
  | poll q => exact .inl rfl
  | close q =>
    cases q with
    | getEvents => exact .inr rfl
    | _ => cases h

/-- A step does not take a thread into a polling method. -/
theorem next_polls (hn : next cfg s (.step t ans) = some s') (h : (s'.pc t).polls = true) :
    (s.pc t).polls = true := by
  cases next_moves hn with
  | blocked _ _ q _ hpc _ => rw [hpc]; rfl
  | poll _ _ q _ hpc _ => rw [hpc]; rfl
  | submit _ _ q _ hpc hm =>
    cases hm <;> simp [State.goto, Pc.polls] at h
  | close _ _ q _ hpc hm =>
    cases hm <;> simp [State.goto, Pc.polls] at h

/-- A thread comes into a polling method by a call. -/
theorem next_polls_cases (hn : next cfg s l = some s') (h : (s'.pc u).polls = true) :
    (s.pc u).polls = true ∨ l = .call u .poll ∨
      ∃ callbacks min max, l = .call u (.pollInto callbacks min max) := by
  by_cases hl : l.tid? = some u
  · cases l with
    | call t m =>
      obtain rfl := Option.some.inj hl
      cases m with
      | poll => exact .inr (.inl rfl)
      | pollInto callbacks min max => exact .inr (.inr ⟨callbacks, min, max, rfl⟩)
      | submit a | close =>
        cases next_moves hn with
        | call _ _ _ _ _ hm => cases hm <;> simp [State.goto, Pc.polls] at h
    | step t ans =>
      obtain rfl := Option.some.inj hl
      exact .inl (next_polls hn h)
    | _ => cases hl
  · exact .inl (next_pc_of_ne hn hl ▸ h)

/-- The teardown begins behind `pthread_mutex_lock` of `deleteContext`. -/
theorem next_tearsDown (hn : next cfg s (.step t ans) = some s')
    (h : (s'.pc t).tearsDown = true) :
    (s.pc t).tearsDown = true ∨ s.pc t = .close .lock := by
  cases next_moves hn with
  | submit _ _ q _ hpc hm => cases hm <;> simp [State.goto, Pc.tearsDown] at h
  | blocked _ _ q _ hpc hm =>
    cases hm with
    | readInterrupted f _ => exact .inl h
    | event f st _ hm => cases hm <;> simp [State.goto, Pc.tearsDown] at h
    | _ => simp [State.goto, Pc.tearsDown] at h
  | poll _ _ q _ hpc hm => cases hm <;> simp [State.goto, Pc.tearsDown] at h
  | close _ _ q _ hpc hm =>
    rw [hpc]
    cases hm with
    | locked _ => exact .inr rfl
    | unlocked | readFailed _ | read _ _ _ | put _ _ _ | batchEnd _ _ _ | queueReleased
    | destroyed => exact .inl rfl
    | _ => simp [State.goto, Pc.tearsDown] at h

/-! ### The thread that closes -/

/-- The thread is inside `close`, behind the exchange of `closed`. -/
def Pc.closes : Pc → Bool
  | .close _ => true
  | _ => false

theorem Pc.closes_of_tearsDown {q : Pc} (h : q.tearsDown = true) : q.closes = true := by
  cases q with
  | close q => rfl
  | _ => cases h

/-- What only `close` changes. -/
def State.closing (s : State Tid) := (s.closed, s.drained, s.destroyed, s.freed)

/-- A thread that goes on outside `close` leaves the closing thread alone. -/
theorem closing_quiet {q : Pc} (hq : q.closes = false) (hc : s'.closing = s.closing)
    (hpc : s'.pc = Function.update s.pc t q) :
    s'.closing = s.closing ∧ ∀ u, (s'.pc u).closes = true → s'.pc u = s.pc u := by
  refine ⟨hc, fun u hu => ?_⟩
  rw [hpc] at hu ⊢
  by_cases htu : u = t
  · subst htu
    rw [Function.update_self, hq] at hu
    cases hu
  · rw [Function.update_of_ne htu]

/-- What a step means for `close`: the closing thread moves, a thread begins to
close, or nothing happens to the thread that closes. -/
theorem next_close_cases (hn : next cfg s l = some s') :
    (∃ t ans q, l = .step t ans ∧ s.pc t = .close q ∧ CloseMoves cfg s t ans q s') ∨
    (∃ t, s.closed = false ∧ s' = { s with closed := true }.goto t (.close .tryAcquire)) ∨
    (s'.closing = s.closing ∧ ∀ u, (s'.pc u).closes = true → s'.pc u = s.pc u) := by
  cases next_moves hn with
  | call t o m _ hpc hm =>
    cases hm with
    | close hcl => exact .inr (.inl ⟨t, hcl, rfl⟩)
    | _ => exact .inr (.inr (closing_quiet rfl rfl rfl))
  | submit t ans q _ hpc hm => cases hm <;> exact .inr (.inr (closing_quiet rfl rfl rfl))
  | blocked t ans q _ hpc hm =>
    cases hm with
    | readInterrupted f _ => exact .inr (.inr ⟨rfl, fun _ _ => rfl⟩)
    | event f st _ hm => cases hm <;> exact .inr (.inr (closing_quiet rfl rfl rfl))
    | _ => exact .inr (.inr (closing_quiet rfl rfl rfl))
  | poll t ans q _ hpc hm => cases hm <;> exact .inr (.inr (closing_quiet rfl rfl rfl))
  | close t ans q _ hpc hm => exact .inl ⟨t, ans, q, rfl, hpc, hm⟩
  | complete k res r hr _ => exact .inr (.inr ⟨rfl, fun _ _ => rfl⟩)
  | redeliver k ev _ => exact .inr (.inr ⟨rfl, fun _ _ => rfl⟩)
  | setForceSyscall value => exact .inr (.inr ⟨rfl, fun _ _ => rfl⟩)
  | closeDumbHandlers => exact .inr (.inr ⟨rfl, fun _ _ => rfl⟩)

/-- What is freed stays freed. -/
theorem next_freed (hn : next cfg s l = some s') (hf : s'.freed = false) : s.freed = false := by
  rcases next_close_cases hn with ⟨t, ans, q, -, -, hm⟩ | ⟨t, -, rfl⟩ | ⟨hc, -⟩
  · cases hm with
    | freed => cases hf
    | _ => exact hf
  · exact hf
  · exact (congrArg (·.2.2.2) hc).symm.trans hf

/-- What has not happened yet when the closing thread is at `q`. -/
def ClosePc.ahead (s : State Tid) : ClosePc → Prop
  | .tryAcquire => s.drained = false ∧ s.destroyed = [] ∧ s.freed = false
  | .free => s.freed = false
  | _ => s.destroyed = [] ∧ s.freed = false

/-- At most one thread is ever inside `close`. -/
structure SoleCloser (s : State Tid) : Prop where
  unique : ∀ t u, (s.pc t).closes = true → (s.pc u).closes = true → t = u
  closed : ∀ t, (s.pc t).closes = true → s.closed = true
  fresh : s.closed = false → s.drained = false ∧ s.destroyed = [] ∧ s.freed = false
  ahead : ∀ t q, s.pc t = .close q → q.ahead s

theorem SoleCloser.step (h : SoleCloser s) (hn : next cfg s l = some s') : SoleCloser s' := by
  rcases next_close_cases hn with ⟨t, ans, q, rfl, hpc, hm⟩ | ⟨t, hcl, rfl⟩ | ⟨hc, hpcs⟩
  · have ht : (s.pc t).closes = true := by rw [hpc]; rfl
    have hstay : ∀ u, u ≠ t → s'.pc u = s.pc u := fun u hu =>
      next_pc_of_ne hn fun he => hu (Option.some.inj he).symm
    have hclosed : s'.closed = true := by
      rw [← h.closed t ht]
      cases hm <;> rfl
    -- only `t` is inside `close`
    have honly : ∀ u, (s'.pc u).closes = true → u = t := by
      intro u hu
      by_contra hne
      rw [hstay u hne] at hu
      exact hne (h.unique u t hu ht)
    have hahead := h.ahead t q hpc
    refine ⟨fun u v hu hv => (honly u hu).trans (honly v hv).symm, fun _ _ => hclosed, ?_, ?_⟩
    · intro hcl
      rw [hclosed] at hcl
      cases hcl
    · intro u q' hq'
      obtain rfl := honly u (by rw [hq']; rfl)
      cases hm with
      | freed => simp [State.goto] at hq'
      | destroyed =>
        simp only [State.goto, Function.update_self, Pc.close.injEq] at hq'
        subst hq'
        exact hahead.2
      | timedOut _ _ | drained _ _ _ | unlimited _ =>
        simp only [State.goto, Function.update_self, Pc.close.injEq] at hq'
        subst hq'
        exact hahead.2
      | noSpace _ | undone _ _ => simp [State.goto] at hq'
      | _ =>
        simp only [State.goto, Function.update_self, Pc.close.injEq] at hq'
        subst hq'
        exact hahead
  · have hnone : ∀ u, (s.pc u).closes = false := by
      intro u
      rw [Bool.eq_false_iff]
      intro hu
      rw [h.closed u hu] at hcl
      cases hcl
    have honly : ∀ u, u ≠ t → (Function.update s.pc t (Pc.close .tryAcquire) u).closes = false := by
      intro u hu
      rw [Function.update_of_ne hu]
      exact hnone u
    have heq : ∀ u, (Function.update s.pc t (Pc.close .tryAcquire) u).closes = true → u = t := by
      intro u hu
      by_contra hne
      rw [honly u hne] at hu
      cases hu
    refine ⟨fun u v hu hv => (heq u hu).trans (heq v hv).symm, fun _ _ => rfl, nofun, ?_⟩
    intro u q' hq'
    obtain rfl := heq u (by rw [show Function.update s.pc t _ u = .close q' from hq']; rfl)
    simp only [State.goto, Function.update_self, Pc.close.injEq] at hq'
    subst hq'
    exact h.fresh hcl
  · simp only [State.closing, Prod.mk.injEq] at hc
    obtain ⟨hcl, hdr, hde, hfr⟩ := hc
    refine ⟨?_, ?_, ?_, ?_⟩
    · intro t u ht hu
      exact h.unique t u (hpcs t ht ▸ ht) (hpcs u hu ▸ hu)
    · intro t ht
      rw [hcl]
      exact h.closed t (hpcs t ht ▸ ht)
    · intro hf
      rw [hdr, hde, hfr]
      exact h.fresh (hcl ▸ hf)
    · intro t q hq
      have hclose : (s'.pc t).closes = true := by rw [hq]; rfl
      have := h.ahead t q (hpcs t hclose ▸ hq)
      cases q <;> simp only [ClosePc.ahead, hdr, hde, hfr] <;> exact this

omit [DecidableEq Tid] in
theorem SoleCloser.initial (env : Process) :
    SoleCloser (.initial cfg env : State Tid) where
  unique := by simp [State.initial, Pc.closes]
  closed := by simp [State.initial, Pc.closes]
  fresh := fun _ => ⟨rfl, rfl, rfl⟩
  ahead := by simp [State.initial]

/-! ### Assumptions on a run -/

/-- Only thread `p` polls. -/
def OnePoller (p : Tid) : Label Tid → Prop
  | .call t .poll => t = p
  | .call t (.pollInto _ _ _) => t = p
  | _ => True

/-- `deleteContext` does not go on behind the submission of the sentinel. -/
def UpToSentinel (s : State Tid) : Label Tid → Prop
  | .step t _ => s.pc t ≠ .close .lock
  | _ => True

/-- The kernel delivers an event only once. -/
def DeliversOnce : Label Tid → Prop
  | .redeliver _ => False
  | _ => True

/-- No other thread is in the loop over a batch when a thread reads. -/
def ReadsAlone (s : State Tid) : Label Tid → Prop
  | .step t _ => (s.pc t).atRead = true → ∀ u, u ≠ t → (s.pc u).inBatch = false
  | _ => True

instance (p : Tid) : DecidablePred (OnePoller p)
  | .call t .poll | .call t (.pollInto _ _ _) => inferInstanceAs (Decidable (t = p))
  | .call _ (.submit _) | .call _ .close | .step _ _ | .complete _ _ | .redeliver _
  | .setForceSyscall _ | .closeDumbHandlers => isTrue trivial

instance (s : State Tid) : DecidablePred (UpToSentinel s)
  | .step t _ => inferInstanceAs (Decidable (s.pc t ≠ .close .lock))
  | .call _ _ | .complete _ _ | .redeliver _ | .setForceSyscall _ | .closeDumbHandlers =>
    isTrue trivial

instance [Fintype Tid] (s : State Tid) : DecidablePred (ReadsAlone s)
  | .step t _ =>
    inferInstanceAs (Decidable ((s.pc t).atRead = true → ∀ u, u ≠ t → (s.pc u).inBatch = false))
  | .call _ _ | .complete _ _ | .redeliver _ | .setForceSyscall _ | .closeDumbHandlers =>
    isTrue trivial

omit [DecidableEq Tid] in
instance : DecidablePred (DeliversOnce : Label Tid → Prop)
  | .redeliver _ => isFalse id
  | .call _ _ | .step _ _ | .complete _ _ | .setForceSyscall _ | .closeDumbHandlers =>
    isTrue trivial

/-- The buffer of a thread in the loop over a batch is left alone. -/
theorem next_events (hal : ReadsAlone s l) (hn : next cfg s l = some s')
    (hu : (s.pc u).inBatch = true) (hl : l.tid? ≠ some u) : s'.events = s.events := by
  have hread : ∀ t ans, l = .step t ans → (s.pc t).atRead = true → False := by
    rintro t ans rfl hat
    have hout := hal hat u fun he => hl (he ▸ rfl)
    rw [hu] at hout
    cases hout
  cases next_moves hn with
  | call t o m _ hpc hm => cases hm <;> rfl
  | submit t ans q _ hpc hm => cases hm <;> rfl
  | blocked t ans q _ hpc hm =>
    cases hm with
    | read f k _ _ => exact (hread t ans rfl (by rw [hpc]; rfl)).elim
    | event f st _ hm => cases hm <;> rfl
    | _ => rfl
  | poll t ans q _ hpc hm =>
    cases hm with
    | read _ _ _ _ _ _ => exact (hread t ans rfl (by rw [hpc]; rfl)).elim
    | _ => rfl
  | close t ans q _ hpc hm =>
    cases hm with
    | read _ _ _ => exact (hread t ans rfl (by rw [hpc]; rfl)).elim
    | _ => rfl
  | complete k res r hr _ => rfl
  | redeliver k ev _ => rfl
  | setForceSyscall value => rfl
  | closeDumbHandlers => rfl

/-- One event per accepted iocb, and no read into a buffer in use. -/
def Orderly (s : State Tid) (l : Label Tid) : Prop := DeliversOnce l ∧ ReadsAlone s l

instance [Fintype Tid] (s : State Tid) : DecidablePred (Orderly s) := fun _ =>
  inferInstanceAs (Decidable (_ ∧ _))

/-- The assumptions under which the pool works: one poller, a kernel that
delivers each event once, and no teardown. -/
def SoloRun (p : Tid) (s : State Tid) (l : Label Tid) : Prop :=
  OnePoller p l ∧ DeliversOnce l ∧ UpToSentinel s l

instance (p : Tid) (s : State Tid) : DecidablePred (SoloRun p s) := fun _ =>
  inferInstanceAs (Decidable (_ ∧ _ ∧ _))

/-! ### A single poller -/

/-- Only `p` is inside a polling method, and nobody tears the context down. -/
structure SoloPoller (p : Tid) (s : State Tid) : Prop where
  polls : ∀ t, (s.pc t).polls = true → t = p
  before : ∀ t, (s.pc t).tearsDown = false

theorem SoloPoller.step (h : SoloPoller p s) (hsolo : SoloRun p s l)
    (hn : next cfg s l = some s') : SoloPoller p s' := by
  obtain ⟨hone, -, hup⟩ := hsolo
  -- a thread that did not move is where it was
  have hstay : ∀ u, l.tid? ≠ some u → s'.pc u = s.pc u := fun u => next_pc_of_ne hn
  constructor
  · intro u hu
    rcases next_polls_cases hn hu with hold | rfl | ⟨callbacks, min, max, rfl⟩
    · exact h.polls u hold
    · exact hone
    · exact hone
  · intro u
    by_cases hl : l.tid? = some u
    · cases l with
      | call t m =>
        obtain rfl := Option.some.inj hl
        cases next_moves hn with
        | call _ _ _ _ _ hm => cases hm <;> simp [State.goto, Pc.tearsDown]
      | step t ans =>
        obtain rfl := Option.some.inj hl
        rw [Bool.eq_false_iff]
        intro hdown
        rcases next_tearsDown hn hdown with hd | hlock
        · rw [h.before t] at hd
          cases hd
        · exact hup hlock
      | _ => cases hl
    · rw [hstay u hl]
      exact h.before u

omit [DecidableEq Tid] in
theorem SoloPoller.initial (env : Process) :
    SoloPoller p (.initial cfg env : State Tid) where
  polls := by simp [State.initial, Pc.polls]
  before := by simp [State.initial, Pc.tearsDown]

omit [DecidableEq Tid] in
theorem SoloPoller.readsAlone (h : SoloPoller p s) (l : Label Tid) : ReadsAlone s l := by
  cases l with
  | step t ans =>
    have hmine : ∀ u, (s.pc u).polls = true ∨ (s.pc u).tearsDown = true → u = p := by
      intro u hu
      rcases hu with hu | hu
      · exact h.polls u hu
      · rw [h.before u] at hu
        cases hu
    intro hread u hne
    rw [Bool.eq_false_iff]
    intro hbatch
    have hu := hmine u (Pc.polls_or_tearsDown_of_inBatch hbatch)
    have ht := hmine t (Pc.polls_or_tearsDown_of_atRead hread)
    exact hne (hu.trans ht.symm)
  | _ => trivial

/-! ### The lock of the pollers -/

/-- The thread is in `blockedPoll` and holds `pollLock`. -/
def Pc.locks : Pc → Bool
  | .blocked .lock => false
  | .blocked _ => true
  | _ => false

theorem Pc.polls_of_locks {q : Pc} (h : q.locks = true) : q.polls = true := by
  cases q with
  | blocked q => rfl
  | _ => cases h

/-- No thread calls `poll(callbacks, ..)`. -/
def BlockedOnly : Label Tid → Prop
  | .call _ (.pollInto _ _ _) => False
  | _ => True

omit [DecidableEq Tid] in
instance : DecidablePred (BlockedOnly : Label Tid → Prop)
  | .call _ (.pollInto _ _ _) => isFalse id
  | .call _ (.submit _) | .call _ .poll | .call _ .close | .step _ _ | .complete _ _
  | .redeliver _ | .setForceSyscall _ | .closeDumbHandlers => isTrue trivial

/-- Threads submit and call `poll()`, and `deleteContext` goes no further than
the sentinel. -/
def BlockedRun (s : State Tid) (l : Label Tid) : Prop :=
  BlockedOnly l ∧ DeliversOnce l ∧ UpToSentinel s l

instance (s : State Tid) : DecidablePred (BlockedRun s) := fun _ =>
  inferInstanceAs (Decidable (_ ∧ _ ∧ _))

/-- Who is inside `blockedPoll` holds the lock, nobody is inside the other
`poll`, and nobody tears the context down. -/
structure LockedPoller (s : State Tid) : Prop where
  holder : ∀ t, (s.pc t).locks = true → s.pollLock = some t
  blocked : ∀ t q, s.pc t ≠ .poll q
  before : ∀ t, (s.pc t).tearsDown = false

/-- A thread goes on, and the lock stays with any other holder. -/
theorem LockedPoller.move {q : Pc} (h : LockedPoller s)
    (hpc : s'.pc = Function.update s.pc t q)
    (hother : ∀ u, u ≠ t → s.pollLock = some u → s'.pollLock = some u)
    (hself : q.locks = true → s'.pollLock = some t) (hpoll : ∀ q', q ≠ .poll q')
    (hdown : q.tearsDown = false) : LockedPoller s' := by
  refine ⟨?_, ?_, ?_⟩
  · intro u hu
    rcases pc_cases hpc u with ⟨rfl, he⟩ | ⟨hut, he⟩ <;> rw [he] at hu
    · exact hself hu
    · exact hother u hut (h.holder u hu)
  · intro u q'
    rcases pc_cases hpc u with ⟨rfl, he⟩ | ⟨-, he⟩ <;> rw [he]
    · exact hpoll q'
    · exact h.blocked u q'
  · intro u
    rcases pc_cases hpc u with ⟨rfl, he⟩ | ⟨-, he⟩ <;> rw [he]
    · exact hdown
    · exact h.before u

theorem LockedPoller.keep {q : Pc} (h : LockedPoller s) (hlock : s'.pollLock = s.pollLock)
    (hpc : s'.pc = Function.update s.pc t q)
    (hq : q.locks = true → (s.pc t).locks = true) (hpoll : ∀ q', q ≠ .poll q')
    (hdown : q.tearsDown = false) : LockedPoller s' :=
  h.move hpc (fun _ _ hu => hlock.trans hu) (fun hl => hlock.trans (h.holder t (hq hl)))
    hpoll hdown

theorem LockedPoller.step (h : LockedPoller s) (hrun : BlockedRun s l)
    (hn : next cfg s l = some s') : LockedPoller s' := by
  cases next_moves hn with
  | call t o m _ hpc hm =>
    cases hm with
    | pollInto callbacks min max => exact hrun.1.elim
    | _ => exact h.keep rfl rfl nofun nofun rfl
  | submit t ans q _ hpc hm => cases hm <;> exact h.keep rfl rfl nofun nofun rfl
  | blocked t ans q _ hpc hm =>
    cases hm with
    | locked hfree =>
      refine h.move rfl (fun u _ hu => ?_) (fun _ => rfl) nofun rfl
      rw [hfree] at hu
      cases hu
    | unlocked o =>
      refine h.move rfl (fun u hut hu => ?_) nofun nofun rfl
      have hself := h.holder t (by rw [hpc]; rfl)
      exact absurd (Option.some.inj (hu.symm.trans hself)) hut
    | readInterrupted f _ => exact h
    | event f st _ hm =>
      cases hm <;> exact h.keep rfl rfl (fun _ => by rw [hpc]; rfl) nofun rfl
    | _ => exact h.keep rfl rfl (fun _ => by rw [hpc]; rfl) nofun rfl
  | poll t ans q _ hpc hm => exact absurd hpc (h.blocked t q)
  | close t ans q _ hpc hm =>
    have hdown := h.before t
    rw [hpc] at hdown
    cases hm with
    | locked _ => exact absurd hpc hrun.2.2
    | unlocked | readFailed _ | read _ _ _ | put _ _ _ | batchEnd _ _ _ | queueReleased
    | destroyed | freed => cases hdown
    | _ => exact h.keep rfl rfl nofun nofun rfl
  | complete k res r hr _ => exact ⟨h.holder, h.blocked, h.before⟩
  | redeliver k ev _ => exact ⟨h.holder, h.blocked, h.before⟩
  | setForceSyscall value => exact ⟨h.holder, h.blocked, h.before⟩
  | closeDumbHandlers => exact ⟨h.holder, h.blocked, h.before⟩

/-- The lock does not pass from a poller to another thread in one step. -/
theorem LockedPoller.pollLock (h : LockedPoller s) (hrun : BlockedRun s l)
    (hn : next cfg s l = some s') (hp : s.pollLock = some p) :
    s'.pollLock = some p ∨ s'.pollLock = none := by
  cases next_moves hn with
  | call t o m _ hpc hm => cases hm <;> exact .inl hp
  | submit t ans q _ hpc hm => cases hm <;> exact .inl hp
  | blocked t ans q _ hpc hm =>
    cases hm with
    | locked hfree =>
      rw [hp] at hfree
      cases hfree
    | unlocked o => exact .inr rfl
    | event f st _ hm => cases hm <;> exact .inl hp
    | _ => exact .inl hp
  | poll t ans q _ hpc hm => exact absurd hpc (h.blocked t q)
  | close t ans q _ hpc hm =>
    cases hm with
    | locked _ => exact absurd hpc hrun.2.2
    | unlocked => exact .inr rfl
    | _ => exact .inl hp
  | complete k res r hr _ => exact .inl hp
  | redeliver k ev _ => exact .inl hp
  | setForceSyscall value => exact .inl hp
  | closeDumbHandlers => exact .inl hp

omit [DecidableEq Tid] in
theorem LockedPoller.initial (env : Process) :
    LockedPoller (.initial cfg env : State Tid) where
  holder := by simp [State.initial, Pc.locks]
  blocked := by simp [State.initial]
  before := by simp [State.initial, Pc.tearsDown]

omit [DecidableEq Tid] in
theorem LockedPoller.readsAlone (h : LockedPoller s) (l : Label Tid) : ReadsAlone s l := by
  cases l with
  | step t ans =>
    have hmine : ∀ u, (s.pc u).inBatch = true ∨ (s.pc u).atRead = true →
        s.pollLock = some u := by
      intro u hu
      refine h.holder u ?_
      have hdown := h.before u
      rcases hq : s.pc u with o | q | q | q | q
      · simp [hq, Pc.inBatch, Pc.atRead] at hu
      · simp [hq, Pc.inBatch, Pc.atRead] at hu
      · cases q with
        | lock => simp [hq, Pc.inBatch, Pc.atRead] at hu
        | _ => rfl
      · exact absurd hq (h.blocked u q)
      · rw [hq] at hdown hu
        cases q <;> simp [Pc.inBatch, Pc.atRead, Pc.tearsDown] at hu hdown
    intro hread u hne
    rw [Bool.eq_false_iff]
    intro hbatch
    have hu := hmine u (.inl hbatch)
    exact hne (Option.some.inj (hu.symm.trans (hmine t (.inr hread))))
  | _ => trivial

end ArtemisNative
