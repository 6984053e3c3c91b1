/-
ArtemisNative/Drained.lean

A close that has all permits.

One thread is in `blockedPoll` when another one closes the context, and the
`tryAcquire` of `close` succeeds.  A permit comes back only behind `done`; so,
when all of them are in the hands of `close`, every request the kernel has ever
accepted has been reported, and as none is left, no submission gets into the
library any more.  The sentinel that `deleteContext` then submits is alone: the
poller leaves the loop over a batch with nothing behind it, and the control block
is taken apart with nothing under way.

The permits are counted against the history: while the context is not drained,

    ioSpace + permits carried by submissions + accepted requests
      ≤  queueSize + releases

and a request is released at most once.  A permit that a failed submission, a
callback that is `null` or a request on the stop file has lost only makes the
left side smaller: then `tryAcquire` does not succeed.
-/
import ArtemisNative.Delivery
import ArtemisNative.Permits

namespace ArtemisNative

open Transition

variable {Tid : Type} [DecidableEq Tid] {cfg : Config} {s s' : State Tid} {t u p : Tid}
variable {ans : Answer} {l : Label Tid} {o : ℕ} {a : Submission}

/-! ### The discipline -/

/-- Thread `p` is in `blockedPoll`, behind the lock, when a thread closes the
context. -/
def ClosesPolled (p : Tid) (s : State Tid) : Label Tid → Prop
  | .call _ .close => s.closed = false → (s.pc p).locks = true
  | _ => True

/-- The `tryAcquire` of `close` does not give up. -/
def Acquires (s : State Tid) : Label Tid → Prop
  | .step t ans => s.pc t = .close .tryAcquire → ans.timedOut = false
  | _ => True

omit [DecidableEq Tid] in
instance (p : Tid) (s : State Tid) : DecidablePred (ClosesPolled p s)
  | .call _ .close => inferInstanceAs (Decidable (s.closed = false → (s.pc p).locks = true))
  | .call _ (.submit _) | .call _ .poll | .call _ (.pollInto _ _ _) | .step _ _ | .complete _ _
  | .redeliver _ | .setForceSyscall _ | .closeDumbHandlers => isTrue trivial

omit [DecidableEq Tid] in
instance (s : State Tid) : DecidablePred (Acquires s)
  | .step t ans =>
    inferInstanceAs (Decidable (s.pc t = .close .tryAcquire → ans.timedOut = false))
  | .call _ _ | .complete _ _ | .redeliver _ | .setForceSyscall _ | .closeDumbHandlers =>
    isTrue trivial

/-- Threads submit with callbacks that return normally, thread `p` calls `poll()`
and is inside when another thread closes the context, and `close` gets all
permits. -/
def Drains (p : Tid) (s : State Tid) (l : Label Tid) : Prop :=
  (OnePoller p l ∧ BlockedOnly l ∧ ClosesPolled p s l) ∧ DeliversOnce l ∧ Smooth l ∧ Acquires s l

instance (p : Tid) (s : State Tid) : DecidablePred (Drains p s) := fun _ =>
  inferInstanceAs (Decidable ((_ ∧ _ ∧ _) ∧ _ ∧ _ ∧ _))

/-! ### The last poller -/

/-- Only `p` polls, in `blockedPoll`; once the context is closed it does not come
back, and it is gone when the context is taken apart. -/
structure LastPoller (p : Tid) (s : State Tid) : Prop where
  polls : ∀ t, (s.pc t).polls = true → t = p
  blocked : ∀ t q, s.pc t ≠ .poll q
  holder : (s.pc p).locks = true → s.pollLock = some p
  inside : s.closed = true → s.pc p ≠ .blocked .lock
  alone : ∀ t, (s.pc t).tearsDown = true → (s.pc p).polls = false

theorem Pc.locks_of_polls {q : Pc} (hpoll : ∀ q', q ≠ .poll q') (hlock : q ≠ .blocked .lock)
    (h : q.polls = true) : q.locks = true := by
  cases q with
  | blocked q =>
    cases q with
    | lock => exact absurd rfl hlock
    | _ => rfl
  | poll q => exact absurd rfl (hpoll q)
  | _ => cases h

/-- Thread `t` goes on, in a way that suits `p`. -/
theorem LastPoller.move {q : Pc} (h : LastPoller p s) (hpc : s'.pc = Function.update s.pc t q)
    (hpolls : q.polls = true → t = p) (hpoll : ∀ q', q ≠ .poll q')
    (hself : q.locks = true → s'.pollLock = some p)
    (hother : t ≠ p → (s.pc p).locks = true → s'.pollLock = some p)
    (hinside : s'.closed = true → q ≠ .blocked .lock ∧ s.pc p ≠ .blocked .lock)
    (hdown : q.tearsDown = true → (s.pc p).polls = false)
    (hback : q.polls = true → ∀ u, (s.pc u).tearsDown = false) : LastPoller p s' := by
  have hcases := pc_cases hpc
  refine ⟨?_, ?_, ?_, ?_, ?_⟩
  · intro u hu
    rcases hcases u with ⟨rfl, he⟩ | ⟨-, he⟩ <;> rw [he] at hu
    · exact hpolls hu
    · exact h.polls u hu
  · intro u q'
    rcases hcases u with ⟨rfl, he⟩ | ⟨-, he⟩ <;> rw [he]
    · exact hpoll q'
    · exact h.blocked u q'
  · intro hp
    rcases hcases p with ⟨-, he⟩ | ⟨hne, he⟩ <;> rw [he] at hp
    · exact hself hp
    · exact hother hne.symm hp
  · intro hcl
    rcases hcases p with ⟨-, he⟩ | ⟨-, he⟩ <;> rw [he]
    · exact (hinside hcl).1
    · exact (hinside hcl).2
  · intro u hu
    rcases hcases u with ⟨rfl, he⟩ | ⟨-, he⟩ <;> rw [he] at hu
    · rcases hcases p with ⟨-, he'⟩ | ⟨-, he'⟩ <;> rw [he']
      · cases q with
        | close q => rfl
        | _ => cases hu
      · exact hdown hu
    · rcases hcases p with ⟨-, he'⟩ | ⟨-, he'⟩ <;> rw [he']
      · rw [Bool.eq_false_iff]
        intro hq
        rw [hback hq u] at hu
        cases hu
      · exact h.alone u hu

/-- The lock and the flag stay, and thread `t` neither begins nor ends to poll or
to take the context apart. -/
theorem LastPoller.keep {q : Pc} (h : LastPoller p s) (hpc : s'.pc = Function.update s.pc t q)
    (hlock : s'.pollLock = s.pollLock) (hcl : s'.closed = s.closed)
    (hpolls : q.polls = true → (s.pc t).locks = true ∧ q.locks = true)
    (hpoll : ∀ q', q ≠ .poll q')
    (hdown : q.tearsDown = true → (s.pc t).tearsDown = true) : LastPoller p s' := by
  have hold : q.polls = true → t = p := fun hq => h.polls t (Pc.polls_of_locks (hpolls hq).1)
  refine h.move hpc hold hpoll ?_ (fun _ hp => hlock.trans (h.holder hp)) ?_ ?_ ?_
  · intro hq
    have hpoll' := Pc.polls_of_locks hq
    obtain rfl := hold hpoll'
    exact hlock.trans (h.holder (hpolls hpoll').1)
  · intro hc
    refine ⟨?_, h.inside (hcl ▸ hc)⟩
    rintro rfl
    cases (hpolls rfl).2
  · exact fun hq => h.alone t (hdown hq)
  · intro hq u
    rw [Bool.eq_false_iff]
    intro hu
    have hp := h.alone u hu
    obtain rfl := hold hq
    rw [Pc.polls_of_locks (hpolls hq).1] at hp
    cases hp

theorem LastPoller.step (h : LastPoller p s) (hsole : SoleCloser s)
    (hl : OnePoller p l ∧ BlockedOnly l ∧ ClosesPolled p s l) (hn : next cfg s l = some s') :
    LastPoller p s' := by
  obtain ⟨hone, hblocked, hpolled⟩ := hl
  cases next_moves hn with
  | call t o m _ hpc hm =>
    cases hm with
    | pollInto callbacks min max => exact hblocked.elim
    | poll hcl =>
      refine h.move rfl (fun _ => hone) nofun nofun (fun _ hp => h.holder hp) ?_ nofun fun _ u => ?_
      · intro hc
        rw [show s.closed = true from hc] at hcl
        cases hcl
      · rw [Bool.eq_false_iff]
        intro hu
        rw [hsole.closed u (Pc.closes_of_tearsDown hu)] at hcl
        cases hcl
    | close hcl =>
      refine h.move rfl nofun nofun nofun (fun _ hp => h.holder hp) (fun _ => ⟨nofun, ?_⟩)
        nofun nofun
      intro hp
      have hin := hpolled hcl
      rw [hp] at hin
      cases hin
    | _ => exact h.keep rfl rfl rfl nofun nofun nofun
  | submit t ans q _ hpc hm => cases hm <;> exact h.keep rfl rfl rfl nofun nofun nofun
  | blocked t ans q _ hpc hm =>
    obtain rfl : t = p := h.polls t (by rw [hpc]; rfl)
    cases hm with
    | locked hfree =>
      refine h.move rfl (fun _ => rfl) nofun (fun _ => rfl) (fun hne => absurd rfl hne)
        (fun hc => absurd hpc (h.inside hc)) nofun fun _ u => ?_
      rw [Bool.eq_false_iff]
      intro hu
      have hq := h.alone u hu
      rw [hpc] at hq
      cases hq
    | unlocked o =>
      exact h.move rfl nofun nofun nofun (fun hne => absurd rfl hne)
        (fun hc => ⟨nofun, h.inside hc⟩) nofun nofun
    | readInterrupted f _ => exact h
    | event f st _ hm =>
      cases hm <;>
        exact h.keep rfl rfl rfl (fun _ => ⟨by rw [hpc]; rfl, rfl⟩) nofun nofun
    | _ => exact h.keep rfl rfl rfl (fun _ => ⟨by rw [hpc]; rfl, rfl⟩) nofun nofun
  | poll t ans q _ hpc hm => exact absurd hpc (h.blocked t q)
  | close t ans q _ hpc hm =>
    have hclosed : s.closed = true := hsole.closed t (by rw [hpc]; rfl)
    cases hm with
    | locked hfree =>
      -- nobody holds the lock, and `p` does not wait for it
      have hgone : (s.pc p).polls = false := by
        rw [Bool.eq_false_iff]
        intro hp
        have hlock := h.holder (Pc.locks_of_polls (h.blocked p) (h.inside hclosed) hp)
        rw [hfree] at hlock
        cases hlock
      refine h.move rfl nofun nofun nofun (fun _ hp => ?_) (fun hc => ⟨nofun, h.inside hc⟩)
        (fun _ => hgone) nofun
      have hlock := h.holder hp
      rw [hfree] at hlock
      cases hlock
    | unlocked =>
      have hgone := h.alone t (by rw [hpc]; rfl)
      refine h.move rfl nofun nofun nofun (fun _ hp => ?_) (fun hc => ⟨nofun, h.inside hc⟩)
        (fun _ => hgone) nofun
      rw [Pc.polls_of_locks hp] at hgone
      cases hgone
    | readFailed _ | read _ _ _ | put _ _ _ | batchEnd _ _ _ | queueReleased | destroyed =>
      exact h.keep rfl rfl rfl nofun nofun fun _ => by rw [hpc]; rfl
    | _ => exact h.keep rfl rfl rfl nofun nofun nofun
  | complete k res r hr _ => exact ⟨h.polls, h.blocked, h.holder, h.inside, h.alone⟩
  | redeliver k ev _ => exact ⟨h.polls, h.blocked, h.holder, h.inside, h.alone⟩
  | setForceSyscall value => exact ⟨h.polls, h.blocked, h.holder, h.inside, h.alone⟩
  | closeDumbHandlers => exact ⟨h.polls, h.blocked, h.holder, h.inside, h.alone⟩

omit [DecidableEq Tid] in
theorem LastPoller.initial (env : Process) :
    LastPoller p (.initial cfg env : State Tid) where
  polls := by simp [State.initial, Pc.polls]
  blocked := by simp [State.initial]
  holder := by simp [State.initial, Pc.locks]
  inside := by simp [State.initial]
  alone := by simp [State.initial, Pc.tearsDown]

omit [DecidableEq Tid] in
/-- The threads that read batches are `p`, and later the one that closes. -/
theorem LastPoller.readsAlone (h : LastPoller p s) (hsole : SoleCloser s) (l : Label Tid) :
    ReadsAlone s l := by
  cases l with
  | step t ans =>
    intro hread u hne
    rw [Bool.eq_false_iff]
    intro hbatch
    rcases Pc.polls_or_tearsDown_of_inBatch hbatch with hu | hu <;>
      rcases Pc.polls_or_tearsDown_of_atRead hread with ht | ht
    · exact hne ((h.polls u hu).trans (h.polls t ht).symm)
    · have hp := h.alone t ht
      rw [← h.polls u hu, hu] at hp
      cases hp
    · have hp := h.alone u hu
      rw [← h.polls t ht, ht] at hp
      cases hp
    · exact hne (hsole.unique u t (Pc.closes_of_tearsDown hu) (Pc.closes_of_tearsDown ht))
  | _ => trivial

/-! ### The sentinel -/

/-- `deleteContext` has submitted the sentinel. -/
def ClosePc.submitted : ClosePc → Bool
  | .lock | .unlock | .getEvents | .put _ _ | .queueRelease | .destroy | .free => true
  | _ => false

/-- A thread comes to the submission of the sentinel with the iocb prepared. -/
theorem next_prepared {b : ℕ} (hn : next cfg s l = some s') (hl : l.tid? = some t)
    (hpc : s'.pc t = .close (.ioSubmit b)) :
    (s'.iocb b).aio_fildes = s'.dumbWriteHandler := by
  cases next_moves hn with
  | close t ans q _ _ hm =>
    obtain rfl := Option.some.inj hl
    cases hm with
    | prepared b' =>
      obtain rfl : b' = b := by simpa [State.goto] using hpc
      show (Function.update s.iocb b' (sentinel s.dumbWriteHandler) b').aio_fildes = _
      rw [Function.update_self]
      rfl
    | _ => simp [State.goto] at hpc
  | call t o m _ _ hm =>
    obtain rfl := Option.some.inj hl
    cases hm <;> simp [State.goto] at hpc
  | submit t ans q _ _ hm =>
    obtain rfl := Option.some.inj hl
    cases hm <;> simp [State.goto] at hpc
  | blocked t ans q _ hq hm =>
    obtain rfl := Option.some.inj hl
    cases hm with
    | readInterrupted f _ => rw [hq] at hpc; cases hpc
    | event f st _ hm => cases hm <;> simp [State.goto] at hpc
    | _ => simp [State.goto] at hpc
  | poll t ans q _ _ hm =>
    obtain rfl := Option.some.inj hl
    cases hm <;> simp [State.goto] at hpc
  | complete k res r hr _ => cases hl
  | redeliver k ev _ => cases hl
  | setForceSyscall value => cases hl
  | closeDumbHandlers => cases hl

/-- The sentinel is a write to the stop file, and is submitted once. -/
structure OneSentinel (s : State Tid) : Prop where
  prepared : ∀ t b, s.pc t = .close (.ioSubmit b) →
    (s.iocb b).aio_fildes = s.dumbWriteHandler
  handler : ∀ fd, .stop fd ∈ s.accepted → fd = s.dumbWriteHandler
  behind : ∀ fd, .stop fd ∈ s.accepted →
    s.closed = true ∧ ∀ t q, s.pc t = .close q → q.submitted = true
  single : ∀ (z z' : ℕ) (fd fd' : ℤ), s.accepted[z]? = some (.stop fd) →
    s.accepted[z']? = some (.stop fd') → z = z'

/-- The closing thread does not come back from behind the sentinel. -/
theorem OneSentinel.behind_step (h : OneSentinel s) (hsole : SoleCloser s) {fd : ℤ}
    (hfd : .stop fd ∈ s.accepted) (hn : next cfg s l = some s') :
    s'.closed = true ∧ ∀ t q, s'.pc t = .close q → q.submitted = true := by
  obtain ⟨hcl, hall⟩ := h.behind fd hfd
  have hclosed := (hsole.step hn).closed
  rcases next_close_cases hn with ⟨t, ans, q, rfl, hpc, hm⟩ | ⟨t, hno, rfl⟩ | ⟨hc, hpcs⟩
  · have hq := hall t q hpc
    have hcl' : s'.closed = true := by
      rw [← hcl]
      cases hm <;> rfl
    refine ⟨hcl', fun u q' hu => ?_⟩
    by_cases hut : u = t
    · subst hut
      cases hm with
      | timedOut _ _ | drained _ _ _ | unlimited _ | noSpace _ | gotIOCB _ _ _ | prepared _
      | rejected _ _ | accepted _ _ _ | undone _ _ => cases hq
      | freed => simp [State.goto] at hu
      | _ =>
        simp only [State.goto, Function.update_self, Pc.close.injEq] at hu
        subst hu
        rfl
    · rw [next_pc_of_ne hn fun he => hut (Option.some.inj he).symm] at hu
      exact hall u q' hu
  · rw [hcl] at hno
    cases hno
  · refine ⟨(congrArg (·.1) hc).trans hcl, fun u q' hu => hall u q' ?_⟩
    rw [← hpcs u (by rw [hu]; rfl), hu]

theorem OneSentinel.step (h : OneSentinel s) (hown : Owned cfg s) (hsole : SoleCloser s)
    (hne : l ≠ .closeDumbHandlers) (hn : next cfg s l = some s') : OneSentinel s' := by
  have hh := next_handler hn hne
  have hprepared : ∀ t b, s'.pc t = .close (.ioSubmit b) →
      (s'.iocb b).aio_fildes = s'.dumbWriteHandler := by
    intro t b hpc
    by_cases hl : l.tid? = some t
    · exact next_prepared hn hl hpc
    · rw [next_pc_of_ne hn hl] at hpc
      rw [hown.iocb_kept hn hl (by rw [hpc]; exact List.mem_singleton_self b), hh]
      exact h.prepared t b hpc
  rcases next_accepted hn with hacc | ⟨t, a, b, -, -, hacc⟩ | ⟨t, b, hpc, -, hpc', hacc⟩
  · refine ⟨hprepared, ?_, ?_, ?_⟩
    · rw [hacc, hh]
      exact h.handler
    · intro fd hfd
      exact h.behind_step hsole (hacc ▸ hfd) hn
    · rw [hacc]
      exact h.single
  · -- a user's request is no sentinel
    have hold : ∀ fd, .stop fd ∈ s'.accepted → .stop fd ∈ s.accepted := by
      intro fd hfd
      rw [hacc] at hfd
      simpa using hfd
    refine ⟨hprepared, fun fd hfd => hh ▸ h.handler fd (hold fd hfd),
      fun fd hfd => h.behind_step hsole (hold fd hfd) hn, ?_⟩
    have hlt : ∀ (z : ℕ) (fd : ℤ), s'.accepted[z]? = some (.stop fd) → s.accepted[z]? = some (.stop fd) := by
      intro z fd hz
      rw [hacc, List.getElem?_append] at hz
      split at hz
      · exact hz
      · cases (List.mem_singleton.mp (List.mem_of_getElem? hz))
    exact fun z z' fd fd' hz hz' => h.single z z' fd fd' (hlt z fd hz) (hlt z' fd' hz')
  · -- there has been no sentinel before
    have hnone : ∀ fd, .stop fd ∉ s.accepted := fun fd hfd => by
      cases (h.behind fd hfd).2 t _ hpc
    have hsole' := hsole.step hn
    have hclose : (s'.pc t).closes = true := by rw [hpc']; rfl
    have hlast : ∀ (z : ℕ) (fd : ℤ), s'.accepted[z]? = some (.stop fd) → z = s.accepted.length := by
      intro z fd hz
      rw [hacc, List.getElem?_append] at hz
      split at hz
      · exact absurd (List.mem_of_getElem? hz) (hnone fd)
      · have hlt := (List.getElem?_eq_some_iff.mp hz).1
        simp only [List.length_singleton] at hlt
        omega
    refine ⟨hprepared, fun fd hfd => ?_, fun fd hfd => ⟨hsole'.closed t hclose, ?_⟩,
      fun z z' fd fd' hz hz' => (hlast z fd hz).trans (hlast z' fd' hz').symm⟩
    · rw [hacc] at hfd
      rcases List.mem_append.mp hfd with hfd | hfd
      · exact absurd hfd (hnone fd)
      · rw [Origin.stop.inj (List.mem_singleton.mp hfd), hh]
        exact h.prepared t b hpc
    · intro u q hu
      obtain rfl := hsole'.unique u t (by rw [hu]; rfl) hclose
      obtain rfl := Pc.close.inj (hu.symm.trans hpc')
      rfl

omit [DecidableEq Tid] in
theorem OneSentinel.initial (env : Process) :
    OneSentinel (.initial cfg env : State Tid) where
  prepared := by simp [State.initial]
  handler := by simp [State.initial]
  behind := by simp [State.initial]
  single := by simp [State.initial]

/-! ### Behind `tryAcquire` -/

/-- Behind its `tryAcquire` the closing thread has all permits. -/
structure HasDrained (s : State Tid) : Prop where
  past : ∀ t q, s.pc t = .close q → q ≠ .tryAcquire → s.drained = true
  stop : ∀ fd, .stop fd ∈ s.accepted → s.drained = true
  freed : s.freed = true → s.drained = true

theorem next_drained (hn : next cfg s l = some s') (hd : s.drained = true) :
    s'.drained = true := by
  rcases next_close_cases hn with ⟨t, ans, q, rfl, hpc, hm⟩ | ⟨t, -, rfl⟩ | ⟨hc, -⟩
  · cases hm with
    | drained _ _ _ => rfl
    | _ => exact hd
  · exact hd
  · exact (congrArg (·.2.1) hc).trans hd

theorem HasDrained.step (h : HasDrained s) (hsem : cfg.useSemaphore = true)
    (hl : Acquires s l) (hn : next cfg s l = some s') : HasDrained s' where
  past := by
    intro u q' hu hne
    rcases next_close_cases hn with ⟨t, ans, q, rfl, hpc, hm⟩ | ⟨t, -, rfl⟩ | ⟨hc, hpcs⟩
    · cases hm with
      | timedOut _ htime =>
        rw [show ans.timedOut = false from hl hpc] at htime
        cases htime
      | unlimited hno => rw [hsem] at hno; cases hno
      | drained _ _ _ => rfl
      | _ => exact h.past t _ hpc nofun
    · by_cases hut : u = t
      · subst hut
        obtain rfl : ClosePc.tryAcquire = q' := by simpa [State.goto] using hu
        exact absurd rfl hne
      · simp only [State.goto, Function.update_of_ne hut] at hu
        exact h.past u q' hu hne
    · have hold : s.pc u = .close q' := by rw [← hpcs u (by rw [hu]; rfl), hu]
      exact (congrArg (·.2.1) hc).trans (h.past u q' hold hne)
  stop := by
    intro fd hfd
    rcases next_accepted hn with hacc | ⟨t, a, b, -, -, hacc⟩ | ⟨t, b, hpc, -, -, hacc⟩
    · exact next_drained hn (h.stop fd (hacc ▸ hfd))
    · rw [hacc] at hfd
      exact next_drained hn (h.stop fd (by simpa using hfd))
    · exact next_drained hn (h.past t _ hpc nofun)
  freed := by
    intro hfr
    rcases next_close_cases hn with ⟨t, ans, q, rfl, hpc, hm⟩ | ⟨t, -, rfl⟩ | ⟨hc, -⟩
    · cases hm with
      | freed => exact h.past t _ hpc nofun
      | drained _ _ _ => rfl
      | _ => exact h.freed hfr
    · exact h.freed hfr
    · have hfr' : s.freed = true := (congrArg (·.2.2.2) hc).symm.trans hfr
      exact (congrArg (·.2.1) hc).trans (h.freed hfr')

omit [DecidableEq Tid] in
theorem HasDrained.initial (env : Process) :
    HasDrained (.initial cfg env : State Tid) where
  past := by simp [State.initial]
  stop := by simp [State.initial]
  freed := by simp [State.initial]

/-! ### Permits against the history -/

/-- The permits a submission carries behind `acquire`. -/
def Pc.carries : Pc → ℤ
  | .submit (.acquire _) => 0
  | .submit _ => 1
  | _ => 0

theorem Pc.carries_nonneg (q : Pc) : 0 ≤ q.carries := by
  unfold Pc.carries
  split <;> omega

def Obs.released? : Obs → Option ℕ
  | .released o => some o
  | _ => none

/-- The requests whose permits `done` has released. -/
def State.releases (s : State Tid) : List ℕ := s.log.filterMap Obs.released?

omit [DecidableEq Tid] in
theorem State.mem_releases : o ∈ s.releases ↔ .released o ∈ s.log := by
  rw [State.releases, List.mem_filterMap]
  constructor
  · rintro ⟨ob, hob, ho⟩
    cases ob with
    | released o' =>
      obtain rfl : o' = o := Option.some.inj ho
      exact hob
    | _ => cases ho
  · exact fun hob => ⟨_, hob, rfl⟩

omit [DecidableEq Tid] in
theorem Coherent.releases_nodup (h : Coherent cfg s) : s.releases.Nodup := by
  rw [List.nodup_iff_count_le_one]
  intro o
  have hcount : s.releases.count o = s.log.count (.released o) := by
    rw [State.releases, List.count_filterMap, List.count]
    apply List.countP_congr
    intro ob _
    cases ob <;> simp [Obs.released?]
  have habout : (about Obs.op? o s.log).count (.released o) = s.log.count (.released o) :=
    List.count_filter (by simp [Obs.op?])
  rw [hcount, ← habout]
  exact List.nodup_iff_count_le_one.mp (h.about_nodup o) _

omit [DecidableEq Tid] in
theorem Coherent.releases_subset (h : Coherent cfg s) :
    s.releases.toFinset ⊆ Finset.range s.accepted.length := by
  intro o ho
  have hmem := State.mem_releases.mp (List.mem_toFinset.mp ho)
  exact Finset.mem_range.mpr (h.lt_of_mem hmem rfl)

omit [DecidableEq Tid] in
/-- As many releases as requests: every request is released. -/
theorem Coherent.all_released (h : Coherent cfg s)
    (hlen : s.accepted.length ≤ s.releases.length) (ho : o < s.accepted.length) :
    .released o ∈ s.log := by
  have heq := Finset.eq_of_subset_of_card_le h.releases_subset (by
    rw [Finset.card_range, List.toFinset_card_of_nodup h.releases_nodup]
    exact hlen)
  apply State.mem_releases.mp
  rw [← List.mem_toFinset, heq]
  exact Finset.mem_range.mpr ho

/-- Every permit is either with `close` or lost, and every request the kernel
has accepted from users has been released. -/
structure Emptied (s : State Tid) : Prop where
  space : s.ioSpace = 0
  carries : ∀ t, (s.pc t).carries = 0
  released : ∀ (o : ℕ) (a : Submission), s.accepted[o]? = some (.user a) → .released o ∈ s.log

/-- The permits while the context is not drained, and from then on. -/
structure PermitsSpent [Fintype Tid] (cfg : Config) (s : State Tid) : Prop where
  cover : s.drained = false →
    s.ioSpace + ∑ u, (s.pc u).carries + s.accepted.length ≤ cfg.queueSize + s.releases.length
  emptied : s.drained = true → Emptied s

section Spent

variable [Fintype Tid]

/-- A step of thread `t` keeps the inequality if it does so for what `t` has a
part in. -/
theorem PermitsSpent.move (h : PermitsSpent cfg s) (hd : s'.drained = false)
    (hd' : s'.drained = s.drained) (hstay : ∀ u, u ≠ t → s'.pc u = s.pc u)
    (hcover : s'.ioSpace + (s'.pc t).carries + s'.accepted.length + s.releases.length
      ≤ s.ioSpace + (s.pc t).carries + s.accepted.length + s'.releases.length) :
    s'.ioSpace + ∑ u, (s'.pc u).carries + s'.accepted.length
      ≤ cfg.queueSize + s'.releases.length := by
  have hsum : ∑ u, (s'.pc u).carries
      = ∑ u, (s.pc u).carries - (s.pc t).carries + (s'.pc t).carries :=
    sum_shares t fun u hu => by rw [hstay u hu]
  have hold := h.cover (hd' ▸ hd)
  omega

theorem PermitsSpent.cover_step (h : PermitsSpent cfg s) (hdr : HasDrained s)
    (hblocked : ∀ t q, s.pc t ≠ .poll q) (hsem : cfg.useSemaphore = true)
    (hn : next cfg s l = some s') (hd : s'.drained = false) :
    s'.ioSpace + ∑ u, (s'.pc u).carries + s'.accepted.length
      ≤ cfg.queueSize + s'.releases.length := by
  have hstay : ∀ t, l.tid? = some t → ∀ u, u ≠ t → s'.pc u = s.pc u := fun t ht u hu =>
    next_pc_of_ne hn fun he => hu (Option.some.inj (he.symm.trans ht))
  cases next_moves hn with
  | call t o m _ hpc hm =>
    cases hm <;> refine h.move hd rfl (hstay t rfl) ?_ <;>
      simp [State.goto, State.releases, Pc.carries, hpc]
  | submit t ans q _ hpc hm =>
    cases hm with
    | unlimited a hno => rw [hsem] at hno; cases hno
    | acquired a _ _ _ | accepted a b _ _ =>
      refine h.move hd rfl (hstay t rfl) ?_
      simp [State.goto, State.accept, State.releases, Pc.carries, hpc]
      omega
    | _ =>
      refine h.move hd rfl (hstay t rfl) ?_
      simp [State.goto, State.handOut, State.setIocb, State.deleteRef,
        State.putBack, State.releases, Pc.carries, hpc]
  | blocked t ans q _ hpc hm =>
    cases hm with
    | readInterrupted f _ => exact h.cover hd
    | event f st _ hm =>
      cases hm <;> refine h.move hd rfl (hstay t rfl) ?_ <;>
        simp [State.goto, State.record, State.putBack, State.setIocb, State.deleteRef, stopObs,
          State.releases, Obs.released?, Pc.carries, hpc]
      omega
    | _ =>
      refine h.move hd rfl (hstay t rfl) ?_
      simp [State.goto, State.getEvents, State.releases, Obs.released?, Pc.carries, hpc]
  | poll t ans q _ hpc hm => exact absurd hpc (hblocked t q)
  | close t ans q _ hpc hm =>
    cases hm with
    | drained _ _ _ => cases hd
    | accepted b _ _ =>
      have hdrained : s.drained = true := hdr.past t _ hpc (by rintro ⟨⟩)
      rw [show s.drained = false from hd] at hdrained
      cases hdrained
    | _ =>
      refine h.move hd rfl (hstay t rfl) ?_
      simp [State.goto, State.handOut, State.setIocb, State.putBack, State.getEvents,
        State.releases, Obs.released?, Pc.carries, hpc]
  | complete k res r hr _ =>
    have hrel : (s.complete k ⟨r.obj, res, r.op⟩).releases = s.releases := by
      simp [State.complete, State.releases, Obs.released?]
    rw [hrel]
    exact h.cover hd
  | redeliver k ev _ => exact h.cover hd
  | setForceSyscall value => exact h.cover hd
  | closeDumbHandlers => exact h.cover hd

/-! ### A drained context stays so -/

omit [DecidableEq Tid] [Fintype Tid] in
/-- A script that ends in a release is complete. -/
theorem Phase.released_mem {g : Origin} {φ : Phase} (hm : Obs.released o ∈ φ.script cfg g o) :
    ∃ res, φ = .reported res := by
  cases φ with
  | reported res => exact ⟨res, rfl⟩
  | _ => simp [Phase.script, Origin.notice, Origin.pollNotice, Origin.entry] at hm

omit [DecidableEq Tid] [Fintype Tid] in
/-- A request that has been released is not under way any more. -/
theorem Coherent.settled_of_released {g : Origin} (h : Coherent cfg s)
    (hblocked : ∀ t q, s.pc t ≠ .poll q) (hg : s.accepted[o]? = some g)
    (hrel : .released o ∈ s.log) :
    (∀ q, o ∉ (s.phases q).map Prod.fst) ∧ ∃ res, g.fd ≠ s.dumbWriteHandler ∧
      g.isNull = false ∧ about Obs.op? o s.log = (Phase.reported res).script cfg g o := by
  have hmem := mem_about hrel rfl
  rcases h.cases hg with ⟨q, φ, hφ, hlog⟩ | ⟨hnone, φ, -, hneeds, hlog⟩
  · rw [hlog] at hmem
    obtain ⟨res, rfl⟩ := Phase.released_mem hmem
    cases q with
    | none => rcases State.kernel_phase hφ with hφ | ⟨_, hφ⟩ <;> cases hφ
    | some t => cases State.inBlocked (hblocked t) hφ
  · rw [hlog] at hmem
    obtain ⟨res, rfl⟩ := Phase.released_mem hmem
    exact ⟨hnone, res, hneeds.1, hneeds.2, hlog⟩

omit [Fintype Tid] in
theorem Emptied.keep {q : Pc} (h : Emptied s) (hspace : s'.ioSpace = s.ioSpace)
    (hpc : s'.pc = Function.update s.pc t q) (hq : q.carries = 0)
    (hacc : ∀ (o : ℕ) (a : Submission), s'.accepted[o]? = some (.user a) →
      s.accepted[o]? = some (.user a))
    (hlog : s.log <+: s'.log) : Emptied s' where
  space := hspace.trans h.space
  carries := by
    intro u
    rw [hpc]
    by_cases hut : u = t
    · subst hut
      rwa [Function.update_self]
    · rw [Function.update_of_ne hut]
      exact h.carries u
  released := fun o a ho => hlog.subset (h.released o a (hacc o a ho))

omit [Fintype Tid] in
/-- Nothing is released to a drained context, and no submission gets a permit. -/
theorem Emptied.step (h : Emptied s) (hcoh : Coherent cfg s) (hst : OneSentinel s)
    (hblocked : ∀ t q, s.pc t ≠ .poll q) (hsem : cfg.useSemaphore = true)
    (hdr : s.drained = true) (hsole : SoleCloser s) (hn : next cfg s l = some s') :
    Emptied s' := by
  have hsame : ∀ (o : ℕ) (a : Submission), s.accepted[o]? = some (.user a) →
      s.accepted[o]? = some (.user a) := fun _ _ => id
  have hlog := (next_appends hn).2
  cases next_moves hn with
  | call t o m _ hpc hm => cases hm <;> exact h.keep rfl rfl rfl hsame hlog
  | submit t ans q _ hpc hm =>
    have hcarries := h.carries t
    rw [hpc] at hcarries
    cases hm with
    | interrupted a _ _ => exact h.keep rfl rfl rfl hsame hlog
    | acquired a _ _ hpos =>
      rw [h.space] at hpos
      cases hpos
    | unlimited a hno => rw [hsem] at hno; cases hno
    | _ => cases hcarries
  | blocked t ans q _ hpc hm =>
    cases hm with
    | readInterrupted f _ => exact h
    | event f st _ hm =>
      cases hm with
      | released obj _ =>
        -- the request at hand has not been released, so it is no user's; but the
        -- poller does not handle the sentinel
        exfalso
        have hφ : ((s.events f.i).op, Phase.returned (s.events f.i).res) ∈ s.phases (some t) := by
          rw [State.phases, hpc]
          exact List.mem_cons_self
        obtain ⟨g, hg, hneeds, -⟩ := Tracks.logged hcoh.tracked _ _ _ hφ
        cases g with
        | user a =>
          have hset := hcoh.settled_of_released hblocked hg (h.released _ a hg)
          exact hset.1 (some t) (List.mem_map_of_mem hφ)
        | stop fd => exact hneeds.1 (hst.handler fd (List.mem_of_getElem? hg))
      | _ => exact h.keep rfl rfl rfl hsame hlog
    | _ => exact h.keep rfl rfl rfl hsame hlog
  | poll t ans q _ hpc hm => exact absurd hpc (hblocked t q)
  | close t ans q _ hpc hm =>
    cases hm with
    | drained _ _ _ =>
      have hahead := (hsole.ahead t _ hpc).1
      rw [hdr] at hahead
      cases hahead
    | accepted b _ _ =>
      refine h.keep rfl rfl rfl (fun o a ho => ?_) hlog
      simp only [State.goto, State.accept, List.getElem?_append] at ho
      split at ho
      · exact ho
      · cases List.mem_singleton.mp (List.mem_of_getElem? ho)
    | _ => exact h.keep rfl rfl rfl hsame hlog
  | complete k res r hr _ => exact ⟨h.space, h.carries, fun o a ho => hlog.subset (h.released o a ho)⟩
  | redeliver k ev _ => exact ⟨h.space, h.carries, h.released⟩
  | setForceSyscall value => exact ⟨h.space, h.carries, h.released⟩
  | closeDumbHandlers => exact ⟨h.space, h.carries, h.released⟩

/-- When `close` has got all permits, nobody else has one. -/
theorem PermitsSpent.emptied_step (h : PermitsSpent cfg s) (hcoh : Coherent cfg s)
    (hdr : s.drained = false) (hn : next cfg s l = some s') (hd : s'.drained = true) :
    Emptied s' := by
  have hcover := h.cover hdr
  have hnonneg : ∀ u, 0 ≤ (s.pc u).carries := fun u => (s.pc u).carries_nonneg
  have hsum : 0 ≤ ∑ u, (s.pc u).carries := Finset.sum_nonneg fun u _ => hnonneg u
  have hle : s.releases.length ≤ s.accepted.length := by
    rw [← List.toFinset_card_of_nodup hcoh.releases_nodup, ← Finset.card_range s.accepted.length]
    exact Finset.card_le_card hcoh.releases_subset
  rcases next_close_cases hn with ⟨t, ans, q, rfl, hpc, hm⟩ | ⟨t, -, rfl⟩ | ⟨hc, -⟩
  · cases hm with
    | drained _ _ hall =>
      have hzero : ∑ u, (s.pc u).carries = 0 := by omega
      have hcarries := (Finset.sum_eq_zero_iff_of_nonneg fun u _ => hnonneg u).mp hzero
      refine ⟨?_, ?_, ?_⟩
      · show s.ioSpace - cfg.queueSize = 0
        omega
      · intro u
        show (Function.update s.pc t _ u).carries = 0
        by_cases hut : u = t
        · subst hut
          rw [Function.update_self]
          rfl
        · rw [Function.update_of_ne hut]
          exact hcarries u (Finset.mem_univ u)
      · intro o a ho
        exact hcoh.all_released (by omega) (List.getElem?_eq_some_iff.mp ho).1
    | _ =>
      rw [show s.drained = true from hd] at hdr
      cases hdr
  · rw [show s.drained = true from hd] at hdr
    cases hdr
  · have hd' : s.drained = true := (congrArg (·.2.1) hc).symm.trans hd
    rw [hdr] at hd'
    cases hd'

/-! ### The close -/

/-- All that holds while a context is used and closed in this way. -/
structure Draining (cfg : Config) (p : Tid) (s : State Tid) : Prop where
  coherent : Coherent cfg s
  sole : SoleCloser s
  poller : LastPoller p s
  sentinel : OneSentinel s
  drained : HasDrained s
  spent : PermitsSpent cfg s

theorem Draining.step (h : Draining cfg p s) (hsem : cfg.useSemaphore = true)
    (hl : Drains p s l) (hn : next cfg s l = some s') : Draining cfg p s' := by
  obtain ⟨hpoll, honce, hsm, hacq⟩ := hl
  have hne : l ≠ .closeDumbHandlers := by
    rintro rfl
    exact hsm
  refine ⟨h.coherent.step hsm honce (h.poller.readsAlone h.sole l) hn, h.sole.step hn,
    h.poller.step h.sole hpoll hn, h.sentinel.step h.coherent.owned h.sole hne hn,
    h.drained.step hsem hacq hn, h.spent.cover_step h.drained h.poller.blocked hsem hn, ?_⟩
  intro hd
  cases hdr : s.drained with
  | false => exact h.spent.emptied_step h.coherent hdr hn hd
  | true =>
    exact (h.spent.emptied hdr).step h.coherent h.sentinel h.poller.blocked hsem hdr h.sole hn

omit [DecidableEq Tid] in
theorem Draining.initial (hq : 0 < cfg.queueSize) (env : Process) :
    Draining cfg p (.initial cfg env : State Tid) where
  coherent := .initial hq env
  sole := .initial env
  poller := .initial env
  sentinel := .initial env
  drained := .initial env
  spent := by
    refine ⟨fun _ => ?_, nofun⟩
    simp only [State.initial, State.releases, Pc.carries]
    split <;> simp

/-- Every request of a user has been reported, its `done` included. -/
def State.AllReported (cfg : Config) (s : State Tid) : Prop :=
  ∀ (o : ℕ) (a : Submission), s.accepted[o]? = some (.user a) →
    ∃ res, about Obs.op? o s.log = report cfg a o res

omit [DecidableEq Tid] in
theorem Draining.allReported (h : Draining cfg p s) (hd : s.drained = true) :
    s.AllReported cfg := by
  intro o a ho
  have hrel := (h.spent.emptied hd).released o a ho
  obtain ⟨-, res, -, hnull, hlog⟩ := h.coherent.settled_of_released h.poller.blocked ho hrel
  have hcb : a.callback ≠ none := Option.isSome_iff_ne_none.mp (Option.isNone_eq_false_iff.mp hnull)
  exact ⟨res, hlog.trans (script_reported hcb)⟩

omit [DecidableEq Tid] in
/-- What is still under way in a drained context is the sentinel. -/
theorem Draining.under_way {q : Option Tid} {φ : Phase} (h : Draining cfg p s)
    (hd : s.drained = true) (hφ : (o, φ) ∈ s.phases q) :
    ∃ fd, s.accepted[o]? = some (.stop fd) := by
  obtain ⟨g, hg, -, -⟩ := Tracks.logged h.coherent.tracked q o φ hφ
  cases g with
  | user a =>
    have hrel := (h.spent.emptied hd).released o a hg
    have hset := h.coherent.settled_of_released h.poller.blocked hg hrel
    exact absurd (List.mem_map_of_mem hφ) (hset.1 q)
  | stop fd => exact ⟨fd, hg⟩

omit [DecidableEq Tid] in
/-- Until the sentinel is submitted, nothing is under way. -/
theorem Draining.quiet (h : Draining cfg p s) (hd : s.drained = true)
    (hno : ∀ fd, .stop fd ∉ s.accepted) (q : Option Tid) : s.phases q = [] := by
  rw [List.eq_nil_iff_forall_not_mem]
  rintro ⟨o, φ⟩ hφ
  obtain ⟨fd, hfd⟩ := h.under_way hd hφ
  exact hno fd (List.mem_of_getElem? hfd)

omit [DecidableEq Tid] in
/-- Nothing is behind the sentinel in its batch. -/
theorem Draining.alone {f : Frame} {fd : ℤ} (h : Draining cfg p s)
    (hpc : s.pc t = .blocked (.event f .stop))
    (hfd : s.accepted[(s.events f.i).op]? = some (.stop fd)) : f.result ≤ f.i + 1 := by
  by_contra hlt
  have hd := h.drained.stop fd (List.mem_of_getElem? hfd)
  -- the next event of the batch is under way too, so it is a sentinel
  have hphases : s.phases (some t) = (s.events f.i).at .stopping ::
      (s.events (f.i + 1)).at .reaped :: (eventsFrom s.events (f.i + 2) f.result).map (·.at .reaped) := by
    rw [State.phases, hpc]
    show Stage.phases s.events f .stop = _
    rw [Stage.phases, eventsFrom_of_lt (by omega)]
    rfl
  obtain ⟨fd', hfd'⟩ := h.under_way (q := some t) (o := (s.events (f.i + 1)).op)
    (φ := .reaped (s.events (f.i + 1)).res) hd (by
      rw [hphases]
      exact List.mem_cons_of_mem _ List.mem_cons_self)
  have heq := h.sentinel.single _ _ fd fd' hfd hfd'
  have hnd := (Tracks.custody h.coherent.tracked).nodup (some t)
  rw [hphases] at hnd
  exact (List.nodup_cons.mp hnd).1 (List.mem_cons.mpr (.inl heq))

/-- No request of a user is accepted any more. -/
theorem Draining.none_accepted {ls : List (Label Tid)} (h : Draining cfg p s)
    (hsem : cfg.useSemaphore = true) (hd : s.drained = true)
    (hr : Run (next cfg) (Drains p) s ls s') (ho : s'.accepted[o]? = some (.user a)) :
    s.accepted[o]? = some (.user a) := by
  induction hr with
  | nil => exact ho
  | @cons s l s₁ ls s' hl hn _ ih =>
    have ho₁ := ih (h.step hsem hl hn) (next_drained hn hd) ho
    rcases next_accepted hn with hacc | ⟨t, a', b, hpc, -⟩ | ⟨t, b, -, -, -, hacc⟩
    · rwa [hacc] at ho₁
    · have hcarries := (h.spent.emptied hd).carries t
      rw [hpc] at hcarries
      cases hcarries
    · rw [hacc, List.getElem?_append] at ho₁
      split at ho₁
      · exact ho₁
      · cases List.mem_singleton.mp (List.mem_of_getElem? ho₁)

/-- **A drained close loses nothing.**  When `deleteContext` is about to submit
the sentinel, every request of a user has been reported, nothing is in the kernel,
in a batch or in a submission, and no request of a user is accepted in any run
from there; the poller leaves its loop on the sentinel with no event behind it;
and when the queue is released, the iocbs are destroyed and the control block is
freed, every request has been reported. -/
theorem drained_close_loses_nothing {env : Process} (hsem : cfg.useSemaphore = true)
    (hq : 0 < cfg.queueSize) (hr : Reaches (next cfg) (Drains p) (.initial cfg env) s) :
    (∀ t b, s.pc t = .close (.ioSubmit b) →
      s.AllReported cfg ∧
      (s.inflight = [] ∧ s.ring = [] ∧ ∀ u o, ¬s.AtHand u o) ∧
      (∀ u q, s.pc u = .submit q → ∃ a, q = .acquire a) ∧
      ∀ ls s', Run (next cfg) (Drains p) s ls s' →
        ∀ (o : ℕ) (a : Submission), s'.accepted[o]? = some (.user a) →
          s.accepted[o]? = some (.user a)) ∧
    (∀ t f fd, s.pc t = .blocked (.event f .stop) →
      s.accepted[(s.events f.i).op]? = some (.stop fd) → f.result ≤ f.i + 1) ∧
    (∀ t q, s.pc t = .close q → q = .queueRelease ∨ q = .destroy ∨ q = .free →
      s.AllReported cfg) ∧
    (s.freed = true → s.AllReported cfg) := by
  have h : Draining cfg p s := hr.invariant (.initial hq env) fun _ _ _ h hl hn =>
    h.step hsem hl hn
  refine ⟨fun t b hpc => ?_, fun t f fd hpc hfd => h.alone hpc hfd, fun t q hpc hq' => ?_,
    fun hfr => h.allReported (h.drained.freed hfr)⟩
  · have hd : s.drained = true := h.drained.past t _ hpc nofun
    have hno : ∀ fd, .stop fd ∉ s.accepted := fun fd hfd => by
      cases (h.sentinel.behind fd hfd).2 t _ hpc
    have hquiet := h.quiet hd hno
    have hkernel := List.append_eq_nil_iff.mp (hquiet none)
    refine ⟨h.allReported hd, ⟨List.map_eq_nil_iff.mp hkernel.1, List.map_eq_nil_iff.mp hkernel.2,
      fun u o hat => ?_⟩, fun u q hu => ?_, fun ls s' hr' o a ho => h.none_accepted hsem hd hr' ho⟩
    · have hnil : (s.pc u).phases s.events = [] := hquiet (some u)
      rw [State.AtHand, hnil] at hat
      cases hat
    · have hcarries := (h.spent.emptied hd).carries u
      rw [hu] at hcarries
      cases q with
      | acquire a => exact ⟨a, rfl⟩
      | _ => cases hcarries
  · refine h.allReported (h.drained.past t q hpc ?_)
    rintro rfl
    rcases hq' with hq' | hq' | hq' <;> cases hq'

end Spent

/-- A write is reported; the poller reads on while the context is closed, takes
the sentinel and leaves, and the queue is about to be released. -/
def drainedClose : List (Label Bool) :=
  submits false ⟨.pwrite, 5, 0, 512, some 1⟩ ++
    [.call true .poll, .step true {}, .complete 0 512, .step true { events := 1 }] ++
    steps true 10 ++ [.call false .close] ++ steps false 4 ++
    [.complete 0 0, .step true { events := 1 }] ++ steps true 3 ++ steps false 4

theorem drained_close_reports_write : ∃ s : State Bool,
    Reaches (next ⟨2, true, true⟩) (Drains true) (.sample ⟨2, true, true⟩) s ∧
      s.pc false = .close .queueRelease ∧
      ∃ res, about Obs.op? 0 s.log
        = report ⟨2, true, true⟩ ⟨.pwrite, 5, 0, 512, some 1⟩ 0 res := by
  obtain ⟨s, hr, hpc, hacc⟩ := exists_of_exec (next ⟨2, true, true⟩) (Drains true)
    (.sample ⟨2, true, true⟩) drainedClose
    (fun s : State Bool => s.pc false = .close .queueRelease ∧
      s.accepted = [.user ⟨.pwrite, 5, 0, 512, some 1⟩, .stop 3]) (by decide)
  have hall := (drained_close_loses_nothing rfl (by decide) hr).2.2.1 false _ hpc (.inl rfl)
  exact ⟨s, hr, hpc, hall 0 _ (by rw [hacc]; rfl)⟩

end ArtemisNative
