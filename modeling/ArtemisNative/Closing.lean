/-
ArtemisNative/Closing.lean

A close that has all permits comes to its end.

`deleteContext` submits the sentinel and waits for `pollLock`, which the poller gives
up when it has read the sentinel; the poller waits for the kernel.  None of the three
waits for ever: from the state in which `close` has got its permits, completions, reads
that return events and the steps of the poller and of the closing thread (`Finishes`,
where the kernel accepts the sentinel) are bounded in number, and where no more of them
is possible, the control block is freed, `close` has returned and the poller is gone
(`close_finishes`).

The argument follows the sentinel.  While the closing thread waits it is in the kernel,
or has been read (`Awaited`); with nothing in the kernel and no batch at hand, the
poller must have taken it for what it is, and then it has left its loop.

What never comes to its end are submissions that wait for a permit when the context is
closed: nobody will release one (`waiting_submitter_is_stranded`).
-/
import ArtemisNative.Progress

namespace ArtemisNative

open Transition

variable {Tid : Type} [DecidableEq Tid] {cfg : Config} {s s' : State Tid} {t u c p : Tid}
variable {ans : Answer} {l : Label Tid} {o z b : ℕ} {a : Submission}

/-! ### The steps that finish a close -/

/-- Behind `tryAcquire`, and not on the way out with an error. -/
def ClosePc.goesOn : ClosePc → Bool
  | .tryAcquire | .putIOCB _ _ => false
  | _ => true

/-- A read that returns events, a step over a batch or out of `blockedPoll`, and a step
of `deleteContext` whose sentinel the kernel accepts. -/
def Pc.finishes (ans : Answer) : Pc → Bool
  | .blocked (.getEvents _) => 0 < ans.events
  | .blocked (.event _ _) | .blocked (.unlock _) => true
  | .close (.ioSubmit _) => 0 ≤ ans.ioSubmit
  | .close q => q.goesOn
  | _ => false

def finishes (s : State Tid) : Label Tid → Bool
  | .step t ans => (s.pc t).finishes ans
  | .complete _ _ => true
  | _ => false

def Finishes (p : Tid) (s : State Tid) (l : Label Tid) : Prop :=
  Drains p s l ∧ finishes s l = true

instance (p : Tid) (s : State Tid) : DecidablePred (Finishes p s) := fun _ =>
  inferInstanceAs (Decidable (_ ∧ _))

/-- What the poller and the closing thread have ahead of them. -/
def Pc.left : Pc → ℕ
  | .blocked (.event f st) => (Pc.blocked (.event f st)).work + 1
  | .blocked _ => 1
  | .close .tryAcquire => 27
  | .close .getIOCB => 26
  | .close (.prep _) => 25
  | .close (.ioSubmit _) => 24
  | .close (.putIOCB _ _) => 1
  | .close .lock => 8
  | .close .unlock => 7
  | .close .getEvents => 6
  | .close (.put i result) => 4 + (result - i)
  | .close .queueRelease => 3
  | .close .destroy => 2
  | .close .free => 1
  | _ => 0

theorem Pc.of_locks {q : Pc} (h : q.locks = true) :
    (∃ f, q = .blocked (.getEvents f)) ∨ (∃ f st, q = .blocked (.event f st)) ∨
      ∃ o, q = .blocked (.unlock o) := by
  cases q with
  | blocked q =>
    cases q with
    | getEvents f => exact .inl ⟨f, rfl⟩
    | event f st => exact .inr (.inl ⟨f, st, rfl⟩)
    | unlock o => exact .inr (.inr ⟨o, rfl⟩)
    | lock => cases h
  | _ => cases h

theorem EventMoves.left_le {f : Frame} {st : Stage} (hm : EventMoves cfg s t ans f st s') :
    (s'.pc t).left ≤ (s'.pc t).work + 1 := by
  cases hm <;> rw [State.pc_goto] <;> simp [Pc.left]

/-! ### The sentinel is not lost -/

structure Finishing [Fintype Tid] (cfg : Config) (p : Tid) (s : State Tid) : Prop where
  draining : Draining cfg p s
  cover : PermitsCover cfg s
  held : ∀ t, s.pollLock = some t → (s.pc t).locks = true ∨ s.pc t = .close .unlock
  sentinel : ∀ t, s.pc t = .close .lock →
    ∃ z fd, s.accepted[z]? = some (.stop fd) ∧ s.Awaited z
  gone : ∀ z fd, s.accepted[z]? = some (.stop fd) → .stopped z ∈ s.log →
    (s.pc p).inLoop = false
  handler : 0 ≤ s.dumbWriteHandler

/-- Who holds `pollLock` is inside `blockedPoll`, or about to give it up in
`deleteContext`. -/
theorem pollLock_held_step
    (h : ∀ t, s.pollLock = some t → (s.pc t).locks = true ∨ s.pc t = .close .unlock)
    (hn : next cfg s l = some s') :
    ∀ t, s'.pollLock = some t → (s'.pc t).locks = true ∨ s'.pc t = .close .unlock := by
  -- a thread that holds the lock and goes on without a change of it
  have hkeep : ∀ {t : Tid} {q : Pc}, s'.pc = Function.update s.pc t q →
      s'.pollLock = s.pollLock → ((s.pc t).locks = true → q.locks = true) →
      s.pc t ≠ .close .unlock →
      ∀ u, s'.pollLock = some u → (s'.pc u).locks = true ∨ s'.pc u = .close .unlock := by
    intro t q hpc hlock hq hno u hu
    rcases pc_cases hpc u with ⟨rfl, he⟩ | ⟨-, he⟩ <;> rw [he]
    · rcases h u (hlock ▸ hu) with hl | hcl
      · exact .inl (hq hl)
      · exact absurd hcl hno
    · exact h u (hlock ▸ hu)
  cases next_moves hn with
  | call t o m _ hpc hm =>
    cases hm <;> exact hkeep rfl rfl (by rw [hpc]; rintro ⟨⟩) (by rw [hpc]; rintro ⟨⟩)
  | submit t ans q _ hpc hm =>
    cases hm <;> exact hkeep rfl rfl (by rw [hpc]; rintro ⟨⟩) (by rw [hpc]; rintro ⟨⟩)
  | blocked t ans q _ hpc hm =>
    cases hm with
    | locked _ =>
      intro u hu
      obtain rfl : t = u := Option.some.inj hu
      rw [State.pc_goto]
      exact .inl rfl
    | unlocked o => rintro u ⟨⟩
    | readInterrupted f _ => exact h
    | event f st _ hm =>
      cases hm <;> exact hkeep rfl rfl (fun _ => rfl) (by rw [hpc]; rintro ⟨⟩)
    | _ => exact hkeep rfl rfl (fun _ => rfl) (by rw [hpc]; rintro ⟨⟩)
  | poll t ans q _ hpc hm =>
    cases hm <;> exact hkeep rfl rfl (by rw [hpc]; rintro ⟨⟩) (by rw [hpc]; rintro ⟨⟩)
  | close t ans q _ hpc hm =>
    cases hm with
    | locked _ =>
      intro u hu
      obtain rfl : t = u := Option.some.inj hu
      rw [State.pc_goto]
      exact .inr rfl
    | unlocked => rintro u ⟨⟩
    | _ => exact hkeep rfl rfl (by rw [hpc]; rintro ⟨⟩) (by rw [hpc]; rintro ⟨⟩)
  | complete k res r hr _ => exact h
  | redeliver k ev _ => exact h
  | setForceSyscall value => exact h
  | closeDumbHandlers => exact h

/-- A thread comes into the loop of `blockedPoll` through the lock. -/
theorem Pc.next_inLoop (hn : next cfg s l = some s') (hp : (s'.pc p).inLoop = true) :
    (s.pc p).inLoop = true ∨ s.pc p = .blocked .lock := by
  by_cases hl : l.tid? = some p
  · cases next_moves hn with
    | call t o m _ hpc hm =>
      obtain rfl := Option.some.inj hl
      cases hm <;> rw [State.pc_goto] at hp <;> cases hp
    | submit t ans q _ hpc hm =>
      obtain rfl := Option.some.inj hl
      cases hm <;> rw [State.pc_goto] at hp <;> cases hp
    | blocked t ans q _ hpc hm =>
      obtain rfl := Option.some.inj hl
      cases q with
      | lock => exact .inr hpc
      | getEvents f => exact .inl (by rw [hpc]; rfl)
      | event f st => exact .inl (by rw [hpc]; rfl)
      | unlock o =>
        cases hm with
        | unlocked o =>
          rw [State.pc_goto] at hp
          cases hp
    | poll t ans q _ hpc hm =>
      obtain rfl := Option.some.inj hl
      cases hm <;> rw [State.pc_goto] at hp <;> cases hp
    | close t ans q _ hpc hm =>
      obtain rfl := Option.some.inj hl
      cases hm <;> rw [State.pc_goto] at hp <;> cases hp
    | _ => cases hl
  · exact .inl (by rwa [next_pc_of_ne hn hl] at hp)

/-- A thread comes to wait for the poller when the kernel has accepted its sentinel. -/
theorem next_lock (hn : next cfg s l = some s') (hpc' : s'.pc t = .close .lock) :
    s.pc t = .close .lock ∨ ∃ fd, s'.accepted = s.accepted ++ [.stop fd] := by
  by_cases hl : l.tid? = some t
  · cases next_moves hn with
    | call t o m _ hpc hm =>
      obtain rfl := Option.some.inj hl
      cases hm <;> rw [State.pc_goto] at hpc' <;> cases hpc'
    | submit t ans q _ hpc hm =>
      obtain rfl := Option.some.inj hl
      cases hm <;> rw [State.pc_goto] at hpc' <;> cases hpc'
    | blocked t ans q _ hpc hm =>
      obtain rfl := Option.some.inj hl
      cases hm with
      | readInterrupted f _ => exact .inl hpc'
      | event f st _ hm => cases hm <;> rw [State.pc_goto] at hpc' <;> cases hpc'
      | _ => rw [State.pc_goto] at hpc'; cases hpc'
    | poll t ans q _ hpc hm =>
      obtain rfl := Option.some.inj hl
      cases hm <;> rw [State.pc_goto] at hpc' <;> cases hpc'
    | close t ans q _ hpc hm =>
      obtain rfl := Option.some.inj hl
      cases hm with
      | accepted b _ _ => exact .inr ⟨_, rfl⟩
      | _ => rw [State.pc_goto] at hpc'; cases hpc'
    | _ => cases hl
  · exact .inl (by rwa [next_pc_of_ne hn hl] at hpc')

/-- A request is taken for the sentinel by a thread that leaves its loop with it. -/
theorem next_stopped (hn : next cfg s l = some s') (hz : .stopped z ∈ s'.log) :
    .stopped z ∈ s.log ∨ ∃ t ans f o, l = .step t ans ∧
      s.pc t = .blocked (.event f .stop) ∧ s'.pc t = .blocked (.unlock o) := by
  have hold : ∀ {obs : List Obs}, s'.log = s.log ++ obs → .stopped z ∉ obs →
      .stopped z ∈ s.log := by
    intro obs hlog hno
    rw [hlog] at hz
    exact (List.mem_append.mp hz).resolve_right hno
  have hread : ∀ (L : List IoEvent) (obs : ℕ → Obs), (∀ k, obs k ≠ .stopped z) →
      .stopped z ∉ L.map fun e => obs e.op := by
    intro L obs hobs hmem
    obtain ⟨e, -, he⟩ := List.mem_map.mp hmem
    exact hobs _ he
  cases next_moves hn with
  | call t o m _ hpc hm => cases hm <;> exact .inl hz
  | submit t ans q _ hpc hm => cases hm <;> exact .inl hz
  | blocked t ans q _ hpc hm =>
    cases hm with
    | read f k _ _ => exact .inl (hold rfl (hread _ .reaped (by rintro k ⟨⟩)))
    | event f st _ hm =>
      cases hm with
      | stopped => exact .inr ⟨t, ans, f, _, rfl, hpc, Function.update_self ..⟩
      | synced _ _ | errorCalled _ _ | put _ | doneCalled _ | doneReturned _ _ | released _ _
      | warned => exact .inl (hold rfl (by simp))
      | _ => exact .inl hz
    | _ => exact .inl hz
  | poll t ans q _ hpc hm =>
    cases hm with
    | read _ _ _ k _ _ => exact .inl (hold rfl (hread _ .polled (by rintro k ⟨⟩)))
    | errorCalled _ _ _ _ _ | stored _ _ _ _ | put _ | released _ _ _ _ =>
      exact .inl (hold rfl (by simp))
    | _ => exact .inl hz
  | close t ans q _ hpc hm =>
    cases hm with
    | read k _ _ => exact .inl (hold rfl (hread _ .discarded (by rintro k ⟨⟩)))
    | _ => exact .inl hz
  | complete k res r hr _ => exact .inl (hold rfl (by simp))
  | redeliver k ev _ => exact .inl hz
  | setForceSyscall value => exact .inl hz
  | closeDumbHandlers => exact .inl hz

section Finishing

variable [Fintype Tid]

theorem Finishing.gone_step (h : Finishing cfg p s) (hl : Drains p s l)
    (hn : next cfg s l = some s') {fd : ℤ} (hz : s'.accepted[z]? = some (.stop fd))
    (hlog : .stopped z ∈ s'.log) : (s'.pc p).inLoop = false := by
  have hlt : .stopped z ∈ s.log → s.accepted[z]? = some (.stop fd) := by
    intro hold
    have hlt := h.draining.coherent.lt_of_mem hold (o := z) rfl
    have heq := getElem?_of_isPrefix (next_appends hn).1 (List.getElem?_eq_getElem hlt)
    rw [List.getElem?_eq_getElem hlt, ← heq, hz]
  rw [Bool.eq_false_iff]
  intro hloop
  rcases next_stopped hn hlog with hold | ⟨t, ans, f, o, rfl, hpc, hpc'⟩
  · have hgone := h.gone z fd (hlt hold) hold
    -- it would have to come in again, through the lock
    have hcl := (h.draining.sentinel.behind fd (List.mem_of_getElem? (hlt hold))).1
    have henter := Pc.next_inLoop hn hloop
    rcases henter with hin | hlock
    · rw [hgone] at hin
      cases hin
    · exact h.draining.poller.inside hcl hlock
  · obtain rfl := h.draining.poller.polls t (by rw [hpc]; rfl)
    rw [hpc'] at hloop
    cases hloop

theorem Finishing.sentinel_step (h : Finishing cfg p s) (hn : next cfg s l = some s')
    (hpc' : s'.pc t = .close .lock) :
    ∃ z fd, s'.accepted[z]? = some (.stop fd) ∧ s'.Awaited z := by
  rcases next_lock hn hpc' with hpc | ⟨fd, hacc⟩
  · obtain ⟨z, fd, hz, haw⟩ := h.sentinel t hpc
    refine ⟨z, fd, getElem?_of_isPrefix (next_appends hn).1 hz, haw.step (fun u _ => ?_) hn⟩
    refine ⟨h.draining.poller.blocked u, ?_⟩
    -- the thread that waits for the poller is the only one in `deleteContext`
    rw [Bool.eq_false_iff]
    intro hdown
    obtain rfl := h.draining.sole.unique u t (Pc.closes_of_tearsDown hdown) (by rw [hpc]; rfl)
    rw [hpc] at hdown
    cases hdown
  · refine ⟨s.accepted.length, fd, by rw [hacc]; simp, next_awaited hn ?_⟩
    rw [hacc, List.length_append, List.length_singleton]
    omega

theorem Finishing.step (h : Finishing cfg p s) (hsem : cfg.useSemaphore = true)
    (hq : 0 < cfg.queueSize) (hl : Drains p s l) (hn : next cfg s l = some s') :
    Finishing cfg p s' where
  draining := h.draining.step hsem hl hn
  cover := by
    apply h.cover.step h.draining.sole hsem hq ?_ hn
    cases l with
    | step t ans => exact fun hpc => h.draining.drained.past t _ hpc (by rintro ⟨⟩)
    | _ => trivial
  held := pollLock_held_step h.held hn
  sentinel := fun t hpc => h.sentinel_step hn hpc
  gone := fun z fd hz hlog => h.gone_step hl hn hz hlog
  handler := by
    have hne : l ≠ .closeDumbHandlers := by
      rintro rfl
      exact hl.2.2.1
    rw [next_handler hn hne]
    exact h.handler

omit [DecidableEq Tid] in
theorem Finishing.initial (hq : 0 < cfg.queueSize) {env : Process}
    (hh : 0 ≤ env.dumbWriteHandler) : Finishing cfg p (.initial cfg env : State Tid) where
  draining := .initial hq env
  cover := .initial env
  held := by simp [State.initial]
  sentinel := by simp [State.initial]
  gone := by simp [State.initial]
  handler := hh

/-! ### Where no step is left -/

omit [DecidableEq Tid] [Fintype Tid] in
theorem drains_step (ans : Answer) (hthrows : ans.throws = false)
    (htime : ans.timedOut = false) : Drains p s (.step t ans) :=
  ⟨⟨trivial, trivial, trivial⟩, trivial, hthrows, fun _ => htime⟩

omit [Fintype Tid] in
theorem finished_kernel (hrest : Rests (next cfg) (Finishes p) s) : s.inflight = [] := by
  by_contra hne
  obtain ⟨r, rs, hrs⟩ := List.exists_cons_of_ne_nil hne
  have hn : next cfg s (.complete 0 0) = some (s.complete 0 ⟨r.obj, 0, r.op⟩) := by
    simp only [next, completeStep, hrs]
    rfl
  exact hrest (.complete 0 0) _ ⟨⟨⟨trivial, trivial, trivial⟩, trivial, trivial, trivial⟩, rfl⟩ hn

omit [Fintype Tid] in
/-- A thread that could go on. -/
theorem finished_step (ans : Answer) (hthrows : ans.throws = false) (htime : ans.timedOut = false)
    (hrest : Rests (next cfg) (Finishes p) s) (hw : (s.pc t).finishes ans = true) :
    threadStep cfg s t ans (s.pc t) = none := by
  rw [Option.eq_none_iff_forall_ne_some]
  intro s' hs'
  exact hrest (.step t ans) s' ⟨drains_step ans hthrows htime, hw⟩ hs'

omit [Fintype Tid] in
/-- A poller that is still inside waits for events, and there are none. -/
theorem finished_poller (hq : 0 < cfg.queueSize) (hrest : Rests (next cfg) (Finishes p) s)
    (hp : (s.pc t).locks = true) : s.ring = [] ∧ ∃ f, s.pc t = .blocked (.getEvents f) := by
  rcases Pc.of_locks hp with ⟨f, hpc⟩ | ⟨f, st, hpc⟩ | ⟨o, hpc⟩
  · refine ⟨?_, f, hpc⟩
    by_contra hne
    have hlen := List.length_pos_iff.mpr hne
    have hmay : s.mayReturn cfg.queueSize 1 := .inr ⟨by omega, hlen⟩
    have hnone := finished_step (t := t) { events := 1 } rfl rfl hrest (by rw [hpc]; rfl)
    rw [hpc] at hnone
    simp only [threadStep, blockedStep, if_pos hmay] at hnone
    cases hnone
  · have hsome : (next cfg s (.step t {})).isSome := step_isSome hpc
    have hnone : next cfg s (.step t {}) = none :=
      finished_step (t := t) {} rfl rfl hrest (by rw [hpc]; rfl)
    rw [hnone] at hsome
    cases hsome
  · have hnone := finished_step (t := t) {} rfl rfl hrest (by rw [hpc]; rfl)
    rw [hpc] at hnone
    cases hnone

omit [DecidableEq Tid] in
/-- A sentinel that has been read, and is not under way any more, was taken for one. -/
theorem Finishing.stopped_of_read {fd : ℤ} (h : Finishing cfg p s) (hd : s.drained = true)
    (hz : s.accepted[z]? = some (.stop fd)) (hread : .reaped z ∈ s.log)
    (hnone : ∀ q, s.phases q = []) : .stopped z ∈ s.log := by
  have hco := h.draining.coherent
  have hfd := h.draining.sentinel.handler fd (List.mem_of_getElem? hz)
  have hmem := mem_about hread rfl
  rcases hco.cases hz with ⟨q, φ, hφ, -⟩ | ⟨-, φ, hend, hneeds, hlog⟩
  · rw [hnone q] at hφ
    cases hφ
  · rw [hlog] at hmem
    rcases Phase.reaped_mem hmem with hφ | ⟨res, rfl⟩ | ⟨res, rfl⟩ | ⟨res, rfl⟩ | ⟨res, rfl⟩
    · exact absurd hend (State.not_ended hφ)
    · have hstopped : .stopped z ∈ about Obs.op? z s.log := by
        rw [hlog]
        simp [Phase.script]
      exact (List.mem_filter.mp hstopped).1
    · -- it would be behind another sentinel, or behind a request that is reported
      obtain ⟨z', g, hz', hfd', hsub⟩ := hend
      cases g with
      | user a =>
        have hrel := (h.draining.spent.emptied hd).released z' a hz'
        obtain ⟨-, res, hne, -⟩ := hco.settled_of_released h.draining.poller.blocked hz' hrel
        exact absurd hfd' hne
      | stop fd' =>
        obtain rfl := h.draining.sentinel.single z' z fd' fd hz' hz
        have htwice := hsub.filter fun ob => decide (ob.op? = some z')
        have hnd := (hco.about_nodup z').sublist htwice
        simp [Obs.op?] at hnd
    · cases hneeds.2
    · exact absurd hfd hneeds.1

/-- The closing thread does not stop on its way. -/
theorem Finishing.not_closing {q : ClosePc} (h : Finishing cfg p s) (hq : 0 < cfg.queueSize)
    (hrest : Rests (next cfg) (Finishes p) s) (hpc : s.pc c = .close q) : q.goesOn = false := by
  rw [Bool.eq_false_iff]
  intro hon
  -- in every place but one there is an answer with which the thread would go on
  have hstep : ∀ ans : Answer, ans.throws = false → ans.timedOut = false →
      (s.pc c).finishes ans = true → closeStep cfg s c ans q = none := by
    intro ans hthrows htime hw
    have hnone := finished_step ans hthrows htime hrest hw
    rwa [hpc] at hnone
  have hdefault := hstep {} rfl rfl
  rw [hpc] at hdefault
  cases q with
  | tryAcquire => cases hon
  | putIOCB b errno => cases hon
  | getIOCB =>
    have hnone := hdefault rfl
    simp only [closeStep] at hnone
    split at hnone <;> cases hnone
  | prep b => cases hdefault rfl
  | ioSubmit b =>
    have hnone := hdefault rfl
    have hfd : 0 ≤ (s.iocb b).aio_fildes := by
      rw [h.draining.sentinel.prepared c b hpc]
      exact h.handler
    simp only [closeStep, if_pos hfd] at hnone
    cases hnone
  | unlock => cases hdefault rfl
  | getEvents =>
    have hmay : s.mayReturn 1 0 := .inr ⟨by omega, Nat.zero_le _⟩
    have hnone := hdefault rfl
    simp only [closeStep, if_pos hmay] at hnone
    cases hnone
  | put i result =>
    have hnone := hdefault rfl
    simp only [closeStep] at hnone
    split at hnone <;> cases hnone
  | queueRelease => cases hdefault rfl
  | destroy => cases hdefault rfl
  | free => cases hdefault rfl
  | lock =>
    have hnone := hdefault rfl
    simp only [closeStep] at hnone
    split at hnone
    · cases hnone
    · rename_i hlock
      obtain ⟨t, ht⟩ := Option.ne_none_iff_exists'.mp hlock
      rcases h.held t ht with hlocks | hunlock
      · -- the poller waits for the sentinel, and the sentinel has been read
        obtain rfl := h.draining.poller.polls t (Pc.polls_of_locks hlocks)
        obtain ⟨hring, f, hf⟩ := finished_poller hq hrest hlocks
        have hkernel := finished_kernel hrest
        obtain ⟨z, fd, hz, haw⟩ := h.sentinel c hpc
        have hread : .reaped z ∈ s.log := by
          rcases haw with hread | ⟨r, hr, -⟩ | ⟨e, he, -⟩
          · exact hread
          · rw [hkernel] at hr
            cases hr
          · rw [hring] at he
            cases he
        -- the poller is in front of its read and the ring is empty, so no request is at hand
        have hphases : ∀ q, s.phases q = [] := by
          intro q
          cases q with
          | none => rw [State.phases, hkernel, hring]; rfl
          | some u =>
            rw [State.phases]
            rcases hu : s.pc u with _ | _ | q | q | _
            · rfl
            · rfl
            · obtain rfl := h.draining.poller.polls u (by rw [hu]; rfl)
              rw [hf] at hu
              obtain rfl := Pc.blocked.inj hu
              rfl
            · exact absurd hu (h.draining.poller.blocked u q)
            · rfl
        -- then it has seen the sentinel, and cannot be in its loop
        have hd := h.draining.drained.past c _ hpc (by rintro ⟨⟩)
        have hgone := h.gone z fd hz (h.stopped_of_read hd hz hread hphases)
        rw [hf] at hgone
        cases hgone
      · obtain rfl := h.draining.sole.unique t c (by rw [hunlock]; rfl) (by rw [hpc]; rfl)
        rw [hpc] at hunlock
        cases hunlock

/-! ### The way to the end -/

/-- The closing thread `c` is on its way, or has come to the end of it. -/
def OnTheWay (c p : Tid) (s : State Tid) : Prop :=
  (∃ q, s.pc c = .close q ∧ q.goesOn = true) ∨
    s.pc c = .idle .returned ∧ s.freed = true ∧ (s.pc p).polls = false

/-- With all permits `deleteContext` gets an iocb, and with its sentinel accepted it goes
on to the end. -/
theorem Finishing.onTheWay_step (h : Finishing cfg p s) (hq : 0 < cfg.queueSize)
    (hon : OnTheWay c p s) (hl : Finishes p s l) (hn : next cfg s l = some s') :
    OnTheWay c p s' := by
  by_cases hc : l.tid? = some c
  · rcases hon with ⟨q, hpc, hgo⟩ | ⟨hpc, -, -⟩
    · cases next_moves hn with
      | close t ans q' _ hpc' hm =>
        obtain rfl := Option.some.inj hc
        obtain rfl := Pc.close.inj (hpc'.symm.trans hpc)
        have hw : (s.pc t).finishes ans = true := hl.2
        rw [hpc] at hw
        cases hm with
        | timedOut _ _ | drained _ _ _ | unlimited _ | undone _ _ => cases hgo
        | noSpace hg =>
          -- all permits are with the closing thread, so an iocb is there for it
          have hd := h.draining.drained.past t _ hpc (by rintro ⟨⟩)
          have hheld : 0 < s.held cfg t := by simp [State.held, hpc, hd, hq]
          exact absurd hg (h.cover.getIOCB_ne_none hheld)
        | rejected b hneg =>
          have hpos : 0 ≤ ans.ioSubmit := of_decide_eq_true hw
          omega
        | freed =>
          refine .inr ⟨State.pc_goto .., rfl, ?_⟩
          have hgone := h.draining.poller.alone t (by rw [hpc]; rfl)
          show (Function.update s.pc t (.idle .returned) p).polls = false
          rw [Function.update_apply]
          split
          · rfl
          · exact hgone
        | _ => exact .inl ⟨_, State.pc_goto .., rfl⟩
      | call t o m _ hpc' _ =>
        obtain rfl := Option.some.inj hc
        rw [hpc] at hpc'
        cases hpc'
      | submit t ans q' _ hpc' _ | blocked t ans q' _ hpc' _ | poll t ans q' _ hpc' _ =>
        obtain rfl := Option.some.inj hc
        rw [hpc] at hpc'
        cases hpc'
      | _ => cases hc
    · -- a thread outside all methods makes no step
      cases l with
      | step t ans =>
        obtain rfl := Option.some.inj hc
        have hw : (s.pc t).finishes ans = true := hl.2
        rw [hpc] at hw
        cases hw
      | call t m => exact absurd hl.2 Bool.false_ne_true
      | _ => cases hc
  · have hsame := next_pc_of_ne hn hc
    rcases hon with ⟨q, hpc, hgo⟩ | ⟨hpc, hfr, hgone⟩
    · exact .inl ⟨q, hsame.trans hpc, hgo⟩
    · refine .inr ⟨hsame.trans hpc, ?_, ?_⟩
      · have hfr' := mt (next_freed hn)
        simpa [hfr] using hfr'
      · by_cases hp : l.tid? = some p
        · cases l with
          | step t ans =>
            obtain rfl := Option.some.inj hp
            have hw : (s.pc t).finishes ans = true := hl.2
            rcases hpt : s.pc t with _ | _ | _ | _ | q <;> rw [hpt] at hw hgone
            · cases hw
            · cases hw
            · cases hgone
            · cases hw
            · -- nobody closes a context that has been freed
              have hahead := h.draining.sole.ahead t q hpt
              cases q <;> simp [ClosePc.ahead, hfr] at hahead
          | call t m => exact absurd hl.2 Bool.false_ne_true
          | _ => cases hp
        · rwa [next_pc_of_ne hn hp]

theorem finishes_read {f : Frame} (hpc : s.pc t = .blocked (.getEvents f))
    (hpos : 0 < ans.events) (hn : next cfg s (.step t ans) = some s') :
    s'.rank Pc.left + 1 ≤ s.rank Pc.left + 0 := by
  rcases next_blockedRead hpc hn with ⟨hneg, -⟩ | ⟨-, hlen, rfl⟩
  · omega
  · apply State.rank_move fun u hu => Function.update_of_ne hu _ _
    simp only [State.goto, State.getEvents, hpc, Pc.left, Pc.work, Function.update_self,
      List.length_drop]
    omega

/-- Every such step is one less. -/
theorem finishes_rank (hl : Finishes p s l) (hblocked : ∀ t q, s.pc t ≠ .poll q)
    (hn : next cfg s l = some s') : s'.rank Pc.left + 1 ≤ s.rank Pc.left + 0 := by
  have hw := hl.2
  cases next_moves hn with
  | call t o m _ hpc hm => cases hw
  | submit t ans q _ hpc hm =>
    simp only [finishes, hpc, Pc.finishes] at hw
    cases hw
  | blocked t ans q _ hpc hm =>
    simp only [finishes, hpc] at hw
    cases hm with
    | locked _ => cases hw
    | readInterrupted f _ | readFailed f _ | read f _ _ _ =>
      exact finishes_read hpc (of_decide_eq_true hw) hn
    | event f st _ hm =>
      have hlt := hm.work_lt
      have hleft := hm.left_le
      have hkernel := hm.kernel
      apply State.rank_move (next_pc_others hn rfl)
      rw [hkernel.1, hkernel.2, hpc]
      show _ + (s'.pc t).left + 1 ≤ _ + ((Pc.blocked (.event f st)).work + 1) + 0
      omega
    | unlocked o =>
      apply State.rank_move (next_pc_others hn rfl)
      simp [State.goto, hpc, Pc.left]
  | poll t ans q _ hpc hm => exact absurd hpc (hblocked t q)
  | close t ans q _ hpc hm =>
    simp only [finishes, hpc] at hw
    cases hm with
    | timedOut _ _ | drained _ _ _ | unlimited _ => cases hw
    | rejected b hneg =>
      have hpos : 0 ≤ ans.ioSubmit := of_decide_eq_true hw
      omega
    | undone b errno => cases hw
    | _ =>
      apply State.rank_move (next_pc_others hn rfl)
      simp [State.goto, State.handOut, State.setIocb, State.accept, State.getEvents,
        State.putBack, hpc, Pc.left] <;> omega
  | complete k res r hr _ =>
    obtain ⟨hk, rfl⟩ := List.getElem?_eq_some_iff.mp hr
    have hlen := List.length_eraseIdx_of_lt hk
    show 15 * (s.inflight.eraseIdx k).length + 14 * (s.ring ++ [_]).length
        + ∑ u, (s.pc u).left + 1
      ≤ 15 * s.inflight.length + 14 * s.ring.length + ∑ u, (s.pc u).left + 0
    rw [hlen, List.length_append, List.length_singleton]
    omega
  | redeliver k ev _ => cases hw
  | setForceSyscall value => cases hw
  | closeDumbHandlers => cases hw

theorem Finishing.of_reaches {env : Process} (hsem : cfg.useSemaphore = true)
    (hq : 0 < cfg.queueSize) (hh : 0 ≤ env.dumbWriteHandler)
    (hr : Reaches (next cfg) (Drains p) (.initial cfg env) s) : Finishing cfg p s :=
  hr.invariant (.initial hq hh) fun _ _ _ h hl hn => h.step hsem hq hl hn

/-- **A close that has got its permits comes to its end.**  Let one thread be in
`blockedPoll` when another one closes the context.  Once `close` has all permits, only so
many completions, reads that return events and steps of the two threads are possible
(if the kernel accepts the sentinel); where no more are, the control block has been
freed, `close` has returned, the poller is gone, and every request has been reported. -/
theorem close_finishes {env : Process} {q : ClosePc} (hsem : cfg.useSemaphore = true)
    (hq : 0 < cfg.queueSize) (hh : 0 ≤ env.dumbWriteHandler)
    (hr : Reaches (next cfg) (Drains p) (.initial cfg env) s)
    (hpc : s.pc c = .close q) (hgo : q.goesOn = true) :
    (∀ ls s', Run (next cfg) (Finishes p) s ls s' → ls.length ≤ s.rank Pc.left) ∧
      (∃ s', Reaches (next cfg) (Finishes p) s s' ∧ Rests (next cfg) (Finishes p) s') ∧
      ∀ s', Reaches (next cfg) (Finishes p) s s' → Rests (next cfg) (Finishes p) s' →
        s'.freed = true ∧ s'.pc c = .idle .returned ∧ (s'.pc p).polls = false ∧
          s'.AllReported cfg := by
  have h := Finishing.of_reaches hsem hq hh hr
  -- the rank goes down along the way, and the way ends nowhere but in `free`
  have hstep : ∀ (s : State Tid) l s', Finishing cfg p s ∧ OnTheWay c p s → Finishes p s l →
      next cfg s l = some s' → (Finishing cfg p s' ∧ OnTheWay c p s') ∧
        s'.rank Pc.left < s.rank Pc.left := by
    rintro s l s' ⟨h, hon⟩ hl hn
    have hrank := finishes_rank hl h.draining.poller.blocked hn
    exact ⟨⟨h.step hsem hq hl.1 hn, h.onTheWay_step hq hon hl hn⟩, by omega⟩
  have h₀ : Finishing cfg p s ∧ OnTheWay c p s := ⟨h, .inl ⟨q, hpc, hgo⟩⟩
  refine ⟨fun ls s' hrun => ?_, ?_, fun s' hreach hrest => ?_⟩
  · have hle := hrun.length_le (State.rank Pc.left) h₀ hstep
    omega
  · obtain ⟨s', hreach, hrest, -⟩ := exists_rests (State.rank Pc.left) h₀ hstep
    exact ⟨s', hreach, hrest⟩
  · obtain ⟨h', hon⟩ := hreach.invariant h₀ fun s l s' h hl hn => (hstep s l s' h hl hn).1
    rcases hon with ⟨q', hpc', hgo'⟩ | ⟨hpc', hfr, hgone⟩
    · rw [h'.not_closing hq hrest hpc'] at hgo'
      cases hgo'
    · exact ⟨hfr, hpc', hgone, h'.draining.allReported (h'.draining.drained.freed hfr)⟩

/-! ### Who is left behind -/

/-- Thread `t` is not interrupted. -/
def Uninterrupted (t : Tid) : Label Tid → Prop
  | .step u ans => u = t → ans.interrupted = false
  | _ => True

instance (t : Tid) : DecidablePred (Uninterrupted t)
  | .step u ans => inferInstanceAs (Decidable (u = t → ans.interrupted = false))
  | .call _ _ | .complete _ _ | .redeliver _ | .setForceSyscall _ | .closeDumbHandlers =>
    isTrue trivial

omit [Fintype Tid] in
/-- In front of an empty semaphore a thread stays. -/
theorem acquire_stays (hsem : cfg.useSemaphore = true) (hspace : s.ioSpace = 0)
    (hpc : s.pc t = .submit (.acquire a)) (hl : Uninterrupted t l)
    (hn : next cfg s l = some s') : s'.pc t = .submit (.acquire a) := by
  by_cases ht : l.tid? = some t
  · cases l with
    | step u ans =>
      obtain rfl := Option.some.inj ht
      have hintr : ans.interrupted = false := hl rfl
      simp [next, hpc, threadStep, submitStep, hsem, hintr, hspace] at hn
    | call u m =>
      obtain rfl := Option.some.inj ht
      simp [next, hpc] at hn
    | _ => cases ht
  · rwa [next_pc_of_ne hn ht]

/-- **Who waits for a permit when the context is closed waits for ever.**  A submission
that has seen the context open and is in front of the semaphore when `close` gets all
permits is there in every later state, whatever the others do, and only an interrupt
lets it go on. -/
theorem waiting_submitter_is_stranded {env : Process} (hsem : cfg.useSemaphore = true)
    (hq : 0 < cfg.queueSize) (hr : Reaches (next cfg) (Drains p) (.initial cfg env) s)
    (hd : s.drained = true) (hpc : s.pc t = .submit (.acquire a))
    (hr' : Reaches (next cfg) (fun s l => Drains p s l ∧ Uninterrupted t l) s s') :
    s'.pc t = .submit (.acquire a) ∧
      ∀ ans : Answer, ans.interrupted = false → next cfg s' (.step t ans) = none := by
  have h : Draining cfg p s := hr.invariant (.initial hq env) fun _ _ _ h hl hn =>
    h.step hsem hl hn
  obtain ⟨h', hd', hpc'⟩ := hr'.invariant
    (I := fun s => Draining cfg p s ∧ s.drained = true ∧ s.pc t = .submit (.acquire a))
    ⟨h, hd, hpc⟩ fun s l s' h hl hn =>
      ⟨h.1.step hsem hl.1 hn, next_drained hn h.2.1,
        acquire_stays hsem (h.1.spent.emptied h.2.1).space h.2.2 hl.2 hn⟩
  refine ⟨hpc', fun ans hintr => ?_⟩
  have hspace := (h'.spent.emptied hd').space
  simp [next, hpc', threadStep, submitStep, hsem, hintr, hspace]

end Finishing

/-- A poller is inside when the context is closed, and `close` has its permits. -/
def closingPolled : List (Label Bool) :=
  [.call true .poll, .step true {}, .call false .close, .step false {}]

theorem close_finishes_polled : ∃ s s' : State Bool,
    Reaches (next ⟨2, true, true⟩) (Drains true) (.sample ⟨2, true, true⟩) s ∧
      s.pc false = .close .getIOCB ∧
      Reaches (next ⟨2, true, true⟩) (Finishes true) s s' ∧
      s'.freed = true ∧ s'.pc false = .idle .returned := by
  obtain ⟨s, hr, hpc⟩ := exists_of_exec (next ⟨2, true, true⟩) (Drains true)
    (.sample ⟨2, true, true⟩) closingPolled
    (fun s : State Bool => s.pc false = .close .getIOCB) (by decide)
  obtain ⟨-, ⟨s', hreach, hrest⟩, hall⟩ := close_finishes rfl (by decide) (by decide) hr hpc rfl
  obtain ⟨hfr, hret, -⟩ := hall s' hreach hrest
  exact ⟨s, s', hr, hpc, hreach, hfr, hret⟩

/-- A submission has seen the context open when it is closed; the close finishes
beside it. -/
def closingBesideSubmit : List (Label (Fin 3)) :=
  [.call 1 .poll, .step 1 {}, .call 0 (.submit ⟨.pwrite, 5, 0, 512, some 1⟩),
    .call 2 .close, .step 2 {}]

theorem waiting_submitter_is_stranded_beside : ∃ s s' : State (Fin 3),
    Reaches (next ⟨1, true, true⟩) (Drains 1) (.sample ⟨1, true, true⟩) s ∧
      Reaches (next ⟨1, true, true⟩) (fun s l => Drains 1 s l ∧ Uninterrupted 0 l) s s' ∧
      s'.freed = true ∧ s'.pc 0 = .submit (.acquire ⟨.pwrite, 5, 0, 512, some 1⟩) := by
  obtain ⟨s, hr, hd, hpc, hend⟩ := exists_of_exec (next ⟨1, true, true⟩) (Drains 1)
    (.sample ⟨1, true, true⟩) closingBesideSubmit
    (fun s : State (Fin 3) => s.drained = true ∧
      s.pc 0 = .submit (.acquire ⟨.pwrite, 5, 0, 512, some 1⟩) ∧
      (exec (next ⟨1, true, true⟩) (fun s l => Drains 1 s l ∧ Uninterrupted 0 l) s
        (steps 2 3 ++ [.complete 0 0, .step 1 { events := 1 }] ++ steps 1 3 ++ steps 2 7)).any
          (fun s' => s'.freed) = true) (by decide)
  obtain ⟨s', hs', hfr⟩ := (Option.any_eq_true _ _).mp hend
  have hr' : Reaches (next ⟨1, true, true⟩) (fun s l => Drains 1 s l ∧ Uninterrupted 0 l) s s' :=
    ⟨_, .of_exec hs'⟩
  obtain ⟨hstays, -⟩ := waiting_submitter_is_stranded rfl (by decide) hr hd hpc hr'
  exact ⟨s, s', hr, hr', hfr, hstays⟩

end ArtemisNative
