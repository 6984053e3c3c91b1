/-
ArtemisNative/Reentrant.lean

Callbacks that call the context.

`SubmitInfo.done` runs on the thread of `blockedPoll`, which holds `pollLock` all the time,
and before `LibaioContext.done` releases the permit of the event.  The native code is ready
for a callback that submits: it has put the iocb back.  A `Reentrant` state adds to the
state of a context the frames of `blockedPoll` that are left for a call from `done`; such a
call is one of the ordinary methods, run by the same thread.

The thread of the poller can wait for itself.  All permits are released by it, and so is
`pollLock` while it is inside `done`: `stuck_iff` says in which states it is stuck, and
`unstuck_iff` which steps keep a run out of them.  The `tryAcquire` of `close` gives up by
itself and is no such wait; `acquire` and `pthread_mutex_lock` do not.
-/
import ArtemisNative.Threads

namespace ArtemisNative

open Transition

variable {Tid : Type} [DecidableEq Tid] {cfg : Config} {t u p : Tid} {ans : Answer}

/-! ### Calls from a callback -/

/-- The methods that a callback calls. -/
inductive Nested
  | submit (a : Submission)
  | close
  deriving DecidableEq, Repr

def Nested.method : Nested → Method
  | .submit a => .submit a
  | .close => .close

structure Reentrant (Tid : Type) where
  base : State Tid
  /-- the locals of `blockedPoll` while the thread is in a call from `done` -/
  outer : Tid → Option (Frame × IocbData)

namespace Reentrant

inductive Label (Tid : Type)
  | base (l : ArtemisNative.Label Tid)
  | enter (t : Tid) (m : Nested)
  | leave (t : Tid)
  deriving DecidableEq, Repr

/-- The thread a label moves. -/
def Label.tid? : Label Tid → Option Tid
  | .base l => l.tid?
  | .enter t _ | .leave t => some t

/-- A thread inside `done` enters a method, and is back in `done` when the method has
ended, by returning or by an exception that `done` catches. -/
def next (cfg : Config) (s : Reentrant Tid) : Label Tid → Option (Reentrant Tid)
  | .base (.call t m) =>
    if s.outer t = none then
      (ArtemisNative.next cfg s.base (.call t m)).map fun b => { s with base := b }
    else
      none
  | .base l => (ArtemisNative.next cfg s.base l).map fun b => { s with base := b }
  | .enter t m =>
    match s.base.pc t with
    | .blocked (.event f (.inDone obj)) =>
      some ⟨callStep s.base t m.method, Function.update s.outer t (some (f, obj))⟩
    | _ => none
  | .leave t =>
    match s.outer t, s.base.pc t with
    | some (f, obj), .idle _ =>
      some ⟨s.base.goto t (.blocked (.event f (.inDone obj))), Function.update s.outer t none⟩
    | _, _ => none

def initial (cfg : Config) (env : Process) : Reentrant Tid := ⟨.initial cfg env, fun _ => none⟩

/-- Thread `p` drains the context by `poll()` and does nothing else, apart from calls in
its callbacks. -/
def Dedicated (p : Tid) : Label Tid → Prop
  | .base (.call t .poll) => t = p
  | .base (.call _ (.pollInto _ _ _)) => False
  | .base (.call t (.submit _)) | .base (.call t .close) => t ≠ p
  | _ => True

end Reentrant

/-! ### Stuck states -/

/-- The thread is at `Semaphore.acquire`, or at `pthread_mutex_lock` of `pollLock`. -/
def Pc.awaitsPermit : Pc → Bool
  | .submit (.acquire _) => true
  | _ => false

def Pc.awaitsLock : Pc → Bool
  | .blocked .lock | .close .lock => true
  | _ => false

/-- The next step of the thread submits the sentinel of `deleteContext`. -/
def Pc.submitsSentinel : Pc → Bool
  | .close (.ioSubmit _) => true
  | _ => false

namespace Reentrant

/-- Thread `p` waits for a permit and there is none, or for `pollLock` and it is taken. -/
def Waits (cfg : Config) (p : Tid) (s : Reentrant Tid) : Prop :=
  (cfg.useSemaphore = true ∧ s.base.ioSpace = 0 ∧ (s.base.pc p).awaitsPermit = true) ∨
    (s.base.pollLock ≠ none ∧ (s.base.pc p).awaitsLock = true)

/-- Thread `p` waits, and whatever the others do, it goes on waiting. -/
def Stuck (cfg : Config) (p : Tid) (s : Reentrant Tid) : Prop :=
  s.Waits cfg p ∧ ∀ ls s', Run (next cfg) (fun _ => Dedicated p) s ls s' →
    (∀ l ∈ ls, l.tid? ≠ some p) → s'.Waits cfg p

end Reentrant

/-! ### The lock and the permits -/

variable {s s' : State Tid} {l : Label Tid}

/-- The thread has locked `pollLock` and not unlocked it, calls from a callback apart. -/
def Pc.holdsLock : Pc → Bool
  | .blocked .lock => false
  | .blocked _ | .close .unlock => true
  | _ => false

theorem holdsLock_quiet {q : Pc} (hpc : s'.pc = Function.update s.pc t q)
    (hq : q.holdsLock = (s.pc t).holdsLock) (u : Tid) :
    (s'.pc u).holdsLock = (s.pc u).holdsLock := by
  rcases pc_cases hpc u with ⟨rfl, hu⟩ | ⟨-, hu⟩ <;> rw [hu]
  exact hq

/-- A step leaves the lock alone, or its thread locks or unlocks it. -/
theorem next_lock_cases (hn : next cfg s l = some s') :
    (s'.pollLock = s.pollLock ∧ ∀ u, (s'.pc u).holdsLock = (s.pc u).holdsLock) ∨
    (∃ t, s.pollLock = none ∧ s'.pollLock = some t ∧ (s'.pc t).holdsLock = true ∧
      ∀ u, u ≠ t → s'.pc u = s.pc u) ∨
    ∃ t, (s.pc t).holdsLock = true ∧ s'.pollLock = none ∧ (s'.pc t).holdsLock = false ∧
      ∀ u, u ≠ t → s'.pc u = s.pc u := by
  have hquiet : ∀ {t : Tid} {q : Pc}, s'.pollLock = s.pollLock →
      s'.pc = Function.update s.pc t q → q.holdsLock = (s.pc t).holdsLock →
      s'.pollLock = s.pollLock ∧ ∀ u, (s'.pc u).holdsLock = (s.pc u).holdsLock :=
    fun hlock hpc hq => ⟨hlock, holdsLock_quiet hpc hq⟩
  have hothers : ∀ (x : State Tid) t q, ∀ u, u ≠ t → (x.goto t q).pc u = x.pc u :=
    fun x t q u hu => Function.update_of_ne hu _ _
  have hself : ∀ (x : State Tid) t q, (x.goto t q).pc t = q :=
    fun _ _ _ => Function.update_self _ _ _
  cases next_moves hn with
  | call t o m _ hpc hm => cases hm <;> exact .inl (hquiet rfl rfl (by rw [hpc]; rfl))
  | submit t ans q _ hpc hm => cases hm <;> exact .inl (hquiet rfl rfl (by rw [hpc]; rfl))
  | blocked t ans q _ hpc hm =>
    cases hm with
    | locked hfree =>
      exact .inr (.inl ⟨t, hfree, rfl, by rw [hself]; rfl, hothers _ _ _⟩)
    | unlocked o =>
      exact .inr (.inr ⟨t, by rw [hpc]; rfl, rfl, by rw [hself]; rfl, hothers _ _ _⟩)
    | readInterrupted f _ => exact .inl ⟨rfl, fun _ => rfl⟩
    | event f st _ hm => cases hm <;> exact .inl (hquiet rfl rfl (by rw [hpc]; rfl))
    | _ => exact .inl (hquiet rfl rfl (by rw [hpc]; rfl))
  | poll t ans q _ hpc hm => cases hm <;> exact .inl (hquiet rfl rfl (by rw [hpc]; rfl))
  | close t ans q _ hpc hm =>
    cases hm with
    | locked hfree =>
      exact .inr (.inl ⟨t, hfree, rfl, by rw [hself]; rfl, hothers _ _ _⟩)
    | unlocked =>
      exact .inr (.inr ⟨t, by rw [hpc]; rfl, rfl, by rw [hself]; rfl, hothers _ _ _⟩)
    | _ => exact .inl (hquiet rfl rfl (by rw [hpc]; rfl))
  | complete k res r hr _ => exact .inl ⟨rfl, fun _ => rfl⟩
  | redeliver k ev _ => exact .inl ⟨rfl, fun _ => rfl⟩
  | setForceSyscall value => exact .inl ⟨rfl, fun _ => rfl⟩
  | closeDumbHandlers => exact .inl ⟨rfl, fun _ => rfl⟩

/-- The permits that the next step of a thread takes, unless it gives up. -/
def State.takes (cfg : Config) (s : State Tid) : Label Tid → ℕ
  | .step t ans =>
    match s.pc t with
    | .submit (.acquire _) => if ans.interrupted then 0 else 1
    | .close .tryAcquire => if ans.timedOut then 0 else cfg.queueSize
    | _ => 0
  | _ => 0

/-- Outside the polling methods permits are only taken. -/
theorem next_ioSpace (hn : next cfg s l = some s') (hsem : cfg.useSemaphore = true)
    (hpolls : ∀ t, l.tid? = some t → (s.pc t).polls = false) :
    s'.ioSpace = s.ioSpace - s.takes cfg l := by
  cases next_moves hn with
  | call t o m _ hpc hm => cases hm <;> rfl
  | submit t ans q _ hpc hm =>
    cases hm with
    | interrupted a _ hint => simp [State.takes, hpc, hint, State.goto]
    | acquired a _ hint _ => simp [State.takes, hpc, hint, State.goto]
    | unlimited a hno => cases hno.symm.trans hsem
    | _ => simp [State.takes, hpc, State.goto, State.accept, State.setIocb, State.handOut,
        State.putBack, State.deleteRef]
  | blocked t ans q _ hpc _ | poll t ans q _ hpc _ =>
    have hno := hpolls t rfl
    rw [hpc] at hno
    cases hno
  | close t ans q _ hpc hm =>
    cases hm with
    | timedOut _ htime => simp [State.takes, hpc, htime, State.goto]
    | drained _ htime _ => simp [State.takes, hpc, htime, State.goto]
    | unlimited hno => cases hno.symm.trans hsem
    | _ => simp [State.takes, hpc, State.goto, State.accept, State.setIocb, State.handOut,
        State.putBack, State.getEvents]
  | complete k res r hr _ => rfl
  | redeliver k ev _ => rfl
  | setForceSyscall value => rfl
  | closeDumbHandlers => rfl

/-! ### The thread that polls -/

namespace Reentrant

variable {s s' : Reentrant Tid} {l : Label Tid} {ls : List (Label Tid)} {env : Process}

/-- A step is one of the context, or begins or ends a call from `done`. -/
theorem next_cases (hn : next cfg s l = some s') :
    (∃ l' b, l = .base l' ∧ ArtemisNative.next cfg s.base l' = some b ∧ s' = ⟨b, s.outer⟩ ∧
      ∀ t m, l' = .call t m → s.outer t = none) ∨
    (∃ t m f obj, l = .enter t m ∧ s.base.pc t = .blocked (.event f (.inDone obj)) ∧
      s' = ⟨callStep s.base t m.method, Function.update s.outer t (some (f, obj))⟩) ∨
    ∃ t f obj, l = .leave t ∧ s.outer t = some (f, obj) ∧
      s' = ⟨s.base.goto t (.blocked (.event f (.inDone obj))), Function.update s.outer t none⟩ := by
  cases l with
  | base l =>
    left
    have hmap : (ArtemisNative.next cfg s.base l).map (fun b => { s with base := b }) = some s' →
        (∀ t m, l = .call t m → s.outer t = none) →
        ∃ l' b, Label.base l = .base l' ∧ ArtemisNative.next cfg s.base l' = some b ∧
          s' = ⟨b, s.outer⟩ ∧ ∀ t m, l' = .call t m → s.outer t = none := by
      intro hmap hcall
      obtain ⟨b, hb, rfl⟩ := Option.map_eq_some_iff.mp hmap
      exact ⟨l, b, rfl, hb, rfl, hcall⟩
    cases l with
    | call t m =>
      simp only [next] at hn
      split at hn
      · rename_i hout
        refine hmap hn fun u m' hu => ?_
        obtain ⟨rfl, -⟩ := ArtemisNative.Label.call.inj hu
        exact hout
      · cases hn
    | _ => exact hmap hn (fun _ _ => nofun)
  | enter t m =>
    right; left
    simp only [next] at hn
    split at hn
    · rename_i f obj hpc
      exact ⟨t, m, f, obj, rfl, hpc, (Option.some.inj hn).symm⟩
    · cases hn
  | leave t =>
    right; right
    simp only [next] at hn
    split at hn
    · rename_i f obj o hout _
      exact ⟨t, f, obj, rfl, hout, (Option.some.inj hn).symm⟩
    · cases hn

/-- Only thread `p` polls, in its callbacks it is in no polling method, and `pollLock` is
held by the thread that has locked it. -/
structure Served (p : Tid) (s : Reentrant Tid) : Prop where
  sole : ∀ t, (s.base.pc t).polls = true ∨ s.outer t ≠ none → t = p
  outside : s.outer p = none → (∃ o, s.base.pc p = .idle o) ∨ ∃ q, s.base.pc p = .blocked q
  inside : s.outer p ≠ none → (s.base.pc p).polls = false ∧ (s.base.pc p).holdsLock = false
  lock : ∀ t, s.base.pollLock = some t ↔
    (s.base.pc t).holdsLock = true ∨ s.outer t ≠ none

/-- A thread that does nothing but poll goes on so. -/
theorem blocked_stays {s s' : State Tid} {l : ArtemisNative.Label Tid} (hl : Dedicated t (.base l))
    (hn : ArtemisNative.next cfg s l = some s')
    (hpc : (∃ o, s.pc t = .idle o) ∨ ∃ q, s.pc t = .blocked q) :
    (∃ o, s'.pc t = .idle o) ∨ ∃ q, s'.pc t = .blocked q := by
  by_cases hmine : l.tid? = some t
  swap
  · rwa [next_pc_of_ne hn hmine]
  cases next_moves hn with
  | call u o m _ _ hm =>
    obtain rfl := Option.some.inj hmine
    cases hm with
    | pollClosed _ => exact .inl ⟨_, Function.update_self _ _ _⟩
    | poll _ => exact .inr ⟨_, State.pc_goto _ _ _⟩
    | pollInto _ _ _ => exact hl.elim
    | refused _ _ | submit _ _ | closeAgain _ | close _ => exact absurd rfl hl
  | blocked u _ q _ hq hm =>
    obtain rfl := Option.some.inj hmine
    cases hm with
    | unlocked o => exact .inl ⟨o, Function.update_self _ _ _⟩
    | readInterrupted f _ => exact .inr ⟨_, hq⟩
    | event f st _ hm => cases hm <;> exact .inr ⟨_, State.pc_goto _ _ _⟩
    | _ => exact .inr ⟨_, State.pc_goto _ _ _⟩
  | submit u _ q _ hq _ | poll u _ q _ hq _ | close u _ q _ hq _ =>
    obtain rfl := Option.some.inj hmine
    rw [hq] at hpc
    rcases hpc with ⟨o, ho⟩ | ⟨q', hq'⟩
    · cases ho
    · cases hq'
  | _ => cases hmine

omit [DecidableEq Tid] in
theorem served_initial [DecidableEq Tid] (env : Process) :
    Served p (.initial cfg env : Reentrant Tid) where
  sole := by simp [initial, State.initial, Pc.polls]
  outside := fun _ => .inl ⟨_, rfl⟩
  inside := fun h => absurd rfl h
  lock := by simp [initial, State.initial, Pc.holdsLock]

/-- A call from a callback begins outside the polling methods and without the lock. -/
theorem callStep_nested (s : State Tid) (t : Tid) (m : Nested) :
    (callStep s t m.method).pollLock = s.pollLock ∧
      ((callStep s t m.method).pc t).polls = false ∧
      ((callStep s t m.method).pc t).holdsLock = false ∧
      ∀ u, u ≠ t → (callStep s t m.method).pc u = s.pc u := by
  have hm := callStep_moves s t m.method
  generalize callStep s t m.method = x at hm ⊢
  cases m with
  | submit a | close =>
    cases hm <;> exact ⟨rfl, by simp [State.goto, Pc.polls], by simp [State.goto, Pc.holdsLock],
      fun u hu => Function.update_of_ne hu _ _⟩

omit [DecidableEq Tid] in
/-- A thread that holds the lock, or is in a call from a callback, is its holder. -/
theorem Served.holds (h : Served p s) (ht : (s.base.pc t).holdsLock = true) :
    s.base.pollLock = some t := (h.lock t).mpr (.inl ht)

omit [DecidableEq Tid] in
theorem Served.calls (h : Served p s) (ht : s.outer t ≠ none) : s.base.pollLock = some t :=
  (h.lock t).mpr (.inr ht)

theorem Served.base {b : State Tid} {l : ArtemisNative.Label Tid} (h : Served p s)
    (hl : Dedicated p (.base l)) (hb : ArtemisNative.next cfg s.base l = some b)
    (hcall : ∀ t m, l = .call t m → s.outer t = none) : Served p ⟨b, s.outer⟩ := by
  refine ⟨?_, fun hnone => blocked_stays hl hb (h.outside hnone), ?_, ?_⟩
  · rintro u (hu | hu)
    · rcases next_polls_cases hb hu with hold | rfl | ⟨callbacks, min, max, rfl⟩
      · exact h.sole u (.inl hold)
      · exact hl
      · exact hl.elim
    · exact h.sole u (.inr hu)
  · intro hsome
    obtain ⟨hpoll, hnot⟩ := h.inside hsome
    constructor
    · rw [Bool.eq_false_iff]
      intro hu
      rcases next_polls_cases hb hu with hold | rfl | ⟨callbacks, min, max, rfl⟩
      · rw [hpoll] at hold
        cases hold
      · exact hsome (hcall p _ rfl)
      · exact hl.elim
    · rcases next_lock_cases hb with ⟨-, hsame⟩ | ⟨t, hfree, -⟩ | ⟨t, -, -, hlast, hsame⟩
      · rw [hsame]
        exact hnot
      · rw [h.calls hsome] at hfree
        cases hfree
      · by_cases hpt : p = t
        · rw [hpt]
          exact hlast
        · rw [hsame p hpt]
          exact hnot
  · intro u
    show b.pollLock = some u ↔ (b.pc u).holdsLock = true ∨ s.outer u ≠ none
    rcases next_lock_cases hb with ⟨hlock, hsame⟩ | ⟨t, hfree, hlock, hlast, hsame⟩ |
      ⟨t, hheld, hlock, hlast, hsame⟩
    · rw [hlock, hsame]
      exact h.lock u
    · rw [hlock]
      by_cases hut : u = t
      · subst hut
        exact iff_of_true rfl (.inl hlast)
      · rw [hsame u hut, ← h.lock u, hfree]
        exact iff_of_false (fun he => hut (Option.some.inj he).symm) nofun
    · rw [hlock]
      refine iff_of_false nofun ?_
      rintro (hu | hu)
      · by_cases hut : u = t
        · rw [hut, hlast] at hu
          cases hu
        · rw [hsame u hut] at hu
          exact hut (Option.some.inj ((h.holds hu).symm.trans (h.holds hheld)))
      · obtain rfl := Option.some.inj ((h.calls hu).symm.trans (h.holds hheld))
        obtain rfl := h.sole u (.inr hu)
        rw [(h.inside hu).2] at hheld
        cases hheld

omit [DecidableEq Tid] in
/-- Thread `p` is the one that calls from a callback, and it is at its top level before. -/
theorem Served.caller {f : Frame} {obj : IocbData} (h : Served p s)
    (hpc : s.base.pc t = .blocked (.event f (.inDone obj))) : t = p ∧ s.outer p = none := by
  obtain rfl := h.sole t (.inl (by rw [hpc]; rfl))
  refine ⟨rfl, ?_⟩
  by_contra hsome
  have hin := (h.inside hsome).1
  rw [hpc] at hin
  cases hin

theorem Served.enter {f : Frame} {obj : IocbData} (m : Nested) (h : Served p s)
    (hpc : s.base.pc p = .blocked (.event f (.inDone obj))) :
    Served p ⟨callStep s.base p m.method, Function.update s.outer p (some (f, obj))⟩ := by
  obtain ⟨hlock, hpoll, hnot, hsame⟩ := callStep_nested s.base p m
  refine ⟨?_, fun hout => ?_, fun _ => ⟨hpoll, hnot⟩, fun u => ?_⟩
  · intro u hu
    by_contra hup
    refine hup (h.sole u ?_)
    rwa [← hsame u hup, ← Function.update_of_ne hup (some (f, obj)) s.outer]
  · simp at hout
  · by_cases hup : u = p
    · subst hup
      exact iff_of_true (hlock.trans (h.holds (by rw [hpc]; rfl))) (.inr (by simp))
    · have hu := h.lock u
      rwa [← hlock, ← hsame u hup, ← Function.update_of_ne hup (some (f, obj)) s.outer] at hu

theorem Served.leave {f : Frame} {obj : IocbData} (h : Served p s)
    (hout : s.outer p = some (f, obj)) :
    Served p ⟨s.base.goto p (.blocked (.event f (.inDone obj))),
      Function.update s.outer p none⟩ := by
  have hsome : s.outer p ≠ none := by rw [hout]; nofun
  have hsame : ∀ u, u ≠ p →
      (s.base.goto p (.blocked (.event f (.inDone obj)))).pc u = s.base.pc u :=
    fun u hup => Function.update_of_ne hup _ _
  have hself : (s.base.goto p (.blocked (.event f (.inDone obj)))).pc p = _ :=
    Function.update_self _ _ _
  refine ⟨?_, fun _ => .inr ⟨_, hself⟩, fun hcon => ?_, fun u => ?_⟩
  · intro u hu
    by_contra hup
    refine hup (h.sole u ?_)
    rwa [← hsame u hup, ← Function.update_of_ne hup none s.outer]
  · exact absurd (Function.update_self _ _ _) hcon
  · by_cases hup : u = p
    · subst hup
      exact iff_of_true (h.calls hsome) (.inl (by rw [hself]; rfl))
    · have hu := h.lock u
      rwa [← hsame u hup, ← Function.update_of_ne hup none s.outer] at hu

/-- **Who polls and who holds the lock**, in every step. -/
theorem Served.step (h : Served p s) (hl : Dedicated p l) (hn : next cfg s l = some s') :
    Served p s' := by
  rcases next_cases hn with ⟨l, b, rfl, hb, rfl, hcall⟩ | ⟨t, m, f, obj, rfl, hpc, rfl⟩ |
    ⟨t, f, obj, rfl, hout, rfl⟩
  · exact h.base hl hb hcall
  · obtain ⟨rfl, -⟩ := h.caller hpc
    exact h.enter m hpc
  · obtain rfl := h.sole t (.inr (by rw [hout]; nofun))
    exact h.leave hout

/-! ### When the poller is stuck -/

/-- The waits of thread `p` that only `p` itself could end. -/
def Deadlocked (cfg : Config) (p : Tid) (s : Reentrant Tid) : Prop :=
  (cfg.useSemaphore = true ∧ s.base.ioSpace = 0 ∧ (s.base.pc p).awaitsPermit = true) ∨
    s.base.pc p = .close .lock

omit [DecidableEq Tid] in
theorem Served.outer_of_awaits (h : Served p s)
    (hpc : (s.base.pc p).awaitsPermit = true ∨ s.base.pc p = .close .lock) : s.outer p ≠ none := by
  intro hnone
  rcases h.outside hnone with ⟨o, ho⟩ | ⟨q, hq⟩
  · simp [ho, Pc.awaitsPermit] at hpc
  · simp [hq, Pc.awaitsPermit] at hpc

omit [DecidableEq Tid] in
theorem Deadlocked.waits (hd : s.Deadlocked cfg p) (h : Served p s) : s.Waits cfg p := by
  refine hd.imp_right fun hpc => ?_
  have hlock := h.calls (h.outer_of_awaits (.inr hpc))
  exact ⟨by rw [hlock]; nofun, by rw [hpc]; rfl⟩

/-- The others leave a thread alone that waits for itself. -/
theorem Deadlocked.stays (hd : s.Deadlocked cfg p) (h : Served p s)
    (hn : next cfg s l = some s') (hl : l.tid? ≠ some p) : s'.Deadlocked cfg p := by
  rcases next_cases hn with ⟨l, b, rfl, hb, rfl, -⟩ | ⟨t, m, f, obj, rfl, hpc, -⟩ |
    ⟨t, f, obj, rfl, hout, -⟩
  · have hstay := next_pc_of_ne hb hl
    rcases hd with ⟨hsem, hzero, hpc⟩ | hpc
    · refine .inl ⟨hsem, ?_, hstay ▸ hpc⟩
      have hspace := next_ioSpace hb hsem fun t ht => by
        rw [Bool.eq_false_iff]
        intro hpoll
        exact hl (ht.trans (congrArg some (h.sole t (.inl hpoll))))
      show b.ioSpace = 0
      rw [hspace, hzero, Nat.zero_sub]
    · exact .inr (hstay ▸ hpc)
  · obtain ⟨rfl, -⟩ := h.caller hpc
    exact absurd rfl hl
  · exact absurd (congrArg some (h.sole t (.inr (by rw [hout]; nofun)))) hl

/-- **The thread of the poller is stuck if and only if** it submits from a callback and
there is no permit, or closes from a callback and has come to wait for the lock it holds. -/
theorem stuck_iff (h : Served p s) : s.Stuck cfg p ↔ s.Deadlocked cfg p := by
  constructor
  · rintro ⟨hwait | ⟨hlock, hpc⟩, hstay⟩
    · exact .inl hwait
    · by_contra hnot
      -- it waits at the beginning of `blockedPoll`, and the holder of the lock unlocks it
      have hpc : s.base.pc p = .blocked .lock := by
        rcases hq : s.base.pc p with o | q | q | q | q <;> rw [hq] at hpc
        · cases hpc
        · cases hpc
        · cases q with
          | lock => rfl
          | _ => cases hpc
        · cases hpc
        · cases q with
          | lock => exact absurd (.inr hq) hnot
          | _ => cases hpc
      obtain ⟨u, hu⟩ := Option.ne_none_iff_exists'.mp hlock
      have hup : u ≠ p := by
        rintro rfl
        rcases (h.lock u).mp hu with hheld | hout
        · rw [hpc] at hheld
          cases hheld
        · have hin := (h.inside hout).1
          rw [hpc] at hin
          cases hin
      have hunlock : s.base.pc u = .close .unlock := by
        rcases (h.lock u).mp hu with hheld | hout
        · rcases hq : s.base.pc u with o | q | q | q | q <;> rw [hq] at hheld
          · cases hheld
          · cases hheld
          · exact absurd (h.sole u (.inl (by rw [hq]; rfl))) hup
          · cases hheld
          · cases q with
            | unlock => rfl
            | _ => cases hheld
        · exact absurd (h.sole u (.inr hout)) hup
      have hn : next cfg s (.base (.step u {})) =
          some ⟨{ s.base with pollLock := none }.goto u (.close .getEvents), s.outer⟩ := by
        simp [next, ArtemisNative.next, threadStep, hunlock, closeStep]
      have hfree : Dedicated p (.base (.step u {})) := trivial
      have hwait := hstay _ _ (.cons hfree hn (.nil _)) fun l hl => by
        rw [List.mem_singleton.mp hl]
        exact fun he => hup (Option.some.inj he)
      rcases hwait with ⟨-, -, hperm⟩ | ⟨hlock, -⟩
      · simp [State.goto, Function.update_of_ne hup.symm, hpc, Pc.awaitsPermit] at hperm
      · exact hlock rfl
  · intro hd
    refine ⟨hd.waits h, fun ls x hr hls => ?_⟩
    have hx := (hr.and_of_forall (R := fun l => l.tid? ≠ some p) hls).invariant
      (I := fun x => Served p x ∧ x.Deadlocked cfg p) ⟨h, hd⟩ fun x l x' hx hl hn =>
        ⟨hx.1.step hl.1 hn, hx.2.stays hx.1 hn hl.2⟩
    exact hx.2.waits hx.1

/-! ### The steps that leave room -/

/-- A callback submits only while there is a permit, or to a closed context; no other
thread takes the last permit while a callback waits for one; and a callback that closes
the context does not get the sentinel submitted. -/
def LeavesRoom (cfg : Config) (p : Tid) (s : Reentrant Tid) : Label Tid → Prop
  | .enter _ (.submit _) => cfg.useSemaphore = true → s.base.closed = false → 0 < s.base.ioSpace
  | .base (.step t ans) =>
    if t = p then (s.base.pc p).submitsSentinel = true → ans.ioSubmit < 0
    else cfg.useSemaphore = true → (s.base.pc p).awaitsPermit = true →
      s.base.takes cfg (.step t ans) < s.base.ioSpace
  | _ => True

/-- A step of the poller itself brings it into a deadlock only by submitting the sentinel. -/
theorem deadlocked_mine {b : State Tid}
    (hb : ArtemisNative.next cfg s.base (.step p ans) = some b) :
    ¬Deadlocked cfg p ⟨b, s.outer⟩ ↔ ((s.base.pc p).submitsSentinel = true → ans.ioSubmit < 0) := by
  -- where a step leads decides it
  have hsafe : ∀ {q}, b.pc p = q → q.awaitsPermit = false → q ≠ .close .lock →
      ¬Deadlocked cfg p ⟨b, s.outer⟩ := by
    rintro q hq hperm hlock (⟨-, -, hd⟩ | hd)
    · have hd : (b.pc p).awaitsPermit = true := hd
      rw [hq, hperm] at hd
      cases hd
    · exact hlock (hq.symm.trans hd)
  have hfree : ∀ {q}, b.pc p = q → q.awaitsPermit = false → q ≠ .close .lock →
      (s.base.pc p).submitsSentinel = false →
      (¬Deadlocked cfg p ⟨b, s.outer⟩ ↔
        ((s.base.pc p).submitsSentinel = true → ans.ioSubmit < 0)) := by
    intro q hq hperm hlock hno
    refine iff_of_true (hsafe hq hperm hlock) fun hyes => ?_
    rw [hno] at hyes
    cases hyes
  cases next_moves hb with
  | submit _ _ q _ hpc hm =>
    cases hm <;> exact hfree (State.pc_goto _ _ _) rfl nofun (by rw [hpc]; rfl)
  | blocked _ _ q _ hpc hm =>
    cases hm with
    | readInterrupted f _ => exact hfree hpc rfl nofun (by rw [hpc]; rfl)
    | event f st _ hm => cases hm <;> exact hfree (State.pc_goto _ _ _) rfl nofun (by rw [hpc]; rfl)
    | _ => exact hfree (State.pc_goto _ _ _) rfl nofun (by rw [hpc]; rfl)
  | poll _ _ q _ hpc hm => cases hm <;> exact hfree (State.pc_goto _ _ _) rfl nofun (by rw [hpc]; rfl)
  | close _ _ q _ hpc hm =>
    cases hm with
    | accepted d hpos _ =>
      refine iff_of_false (not_not.mpr (.inr (State.pc_goto _ _ _))) fun hneg => ?_
      have hneg := hneg (by rw [hpc]; rfl)
      omega
    | rejected d hneg =>
      exact iff_of_true (hsafe (State.pc_goto _ _ _) rfl nofun) fun _ => hneg
    | _ => exact hfree (State.pc_goto _ _ _) rfl nofun (by rw [hpc]; rfl)

/-- A step of another thread brings the poller into a deadlock by taking the last permit. -/
theorem deadlocked_other {b : State Tid} {l : ArtemisNative.Label Tid} (h : Served p s)
    (hnot : ¬s.Deadlocked cfg p) (hb : ArtemisNative.next cfg s.base l = some b)
    (hl : l.tid? ≠ some p) : ¬Deadlocked cfg p ⟨b, s.outer⟩ ↔
      (cfg.useSemaphore = true → (s.base.pc p).awaitsPermit = true →
        s.base.takes cfg l < s.base.ioSpace) := by
  have hstay := next_pc_of_ne hb hl
  have hlock : s.base.pc p ≠ .close .lock := fun hpc => hnot (.inr hpc)
  have hpolls : ∀ t, l.tid? = some t → (s.base.pc t).polls = false := by
    intro t ht
    rw [Bool.eq_false_iff]
    intro hpoll
    exact hl (ht.trans (congrArg some (h.sole t (.inl hpoll))))
  simp only [Deadlocked, hstay, hlock, or_false, not_and]
  constructor
  · intro hzero hsem hperm
    have hspace := next_ioSpace hb hsem hpolls
    have hne := mt (hzero hsem) (not_not.mpr hperm)
    omega
  · intro hroom hsem hzero hperm
    have hspace := next_ioSpace hb hsem hpolls
    have := hroom hsem hperm
    omega

/-- A step from a state without deadlock keeps it so exactly if it leaves room. -/
theorem leavesRoom_iff (h : Served p s) (hnot : ¬s.Deadlocked cfg p) (hl : Dedicated p l)
    (hn : next cfg s l = some s') : ¬s'.Deadlocked cfg p ↔ s.LeavesRoom cfg p l := by
  rcases next_cases hn with ⟨l, b, rfl, hb, rfl, hcall⟩ | ⟨t, m, f, obj, rfl, hpc, rfl⟩ |
    ⟨t, f, obj, rfl, hout, rfl⟩
  · by_cases hmine : l.tid? = some p
    · cases l with
      | step t ans =>
        obtain rfl := Option.some.inj hmine
        rw [deadlocked_mine hb]
        simp only [LeavesRoom, if_true]
      | call t m =>
        obtain rfl := Option.some.inj hmine
        refine iff_of_true ?_ trivial
        have hpc := blocked_stays hl hb (h.outside (hcall t m rfl))
        rintro (⟨-, -, hd⟩ | hd) <;> rcases hpc with ⟨o, ho⟩ | ⟨q, hq⟩
        · simp [ho, Pc.awaitsPermit] at hd
        · simp [hq, Pc.awaitsPermit] at hd
        · simp [ho] at hd
        · simp [hq] at hd
      | _ => cases hmine
    · rw [deadlocked_other h hnot hb hmine]
      have hfree : s.base.takes cfg l = 0 → (cfg.useSemaphore = true →
          (s.base.pc p).awaitsPermit = true → s.base.takes cfg l < s.base.ioSpace) := by
        intro hzero hsem hperm
        have hpos : s.base.ioSpace ≠ 0 := fun hz => hnot (.inl ⟨hsem, hz, hperm⟩)
        omega
      cases l with
      | step t ans =>
        have htp : t ≠ p := fun he => hmine (congrArg some he)
        simp only [LeavesRoom, if_neg htp]
      | _ => exact iff_of_true (hfree rfl) trivial
  · obtain ⟨rfl, -⟩ := h.caller hpc
    have hm := callStep_moves s.base t m.method
    generalize callStep s.base t m.method = x at hm ⊢
    cases m with
    | submit a =>
      cases hm with
      | refused _ hcl => simp [Deadlocked, LeavesRoom, State.pc_goto, Pc.awaitsPermit, hcl]
      | submit _ hcl =>
        simp only [Deadlocked, LeavesRoom, State.pc_goto, Pc.awaitsPermit, hcl, and_true, reduceCtorEq,
          or_false, not_and, forall_const]
        exact forall_congr' fun _ => Nat.pos_iff_ne_zero.symm
    | close => cases hm <;> simp [Deadlocked, LeavesRoom, State.pc_goto, Pc.awaitsPermit]
  · obtain rfl := h.sole t (.inr (by rw [hout]; nofun))
    refine iff_of_true ?_ trivial
    rintro (⟨-, -, hd⟩ | hd)
    · simp [State.goto, Pc.awaitsPermit] at hd
    · simp [State.goto] at hd

/-- **In a run of a context that one thread drains, callbacks that call the context never
get that thread stuck if and only if every step leaves room.** -/
theorem unstuck_iff (hr : Run (next cfg) (fun _ => Dedicated p) (.initial cfg env) ls s') :
    (∀ ls₁ ls₂ x, ls = ls₁ ++ ls₂ →
      Run (next cfg) (fun _ => Dedicated p) (.initial cfg env) ls₁ x → ¬x.Stuck cfg p) ↔
    Run (next cfg) (fun s l => Dedicated p l ∧ s.LeavesRoom cfg p l) (.initial cfg env) ls s' := by
  have hinit : Served p (.initial cfg env : Reentrant Tid) := served_initial env
  refine hr.forall_iff (G := fun x => ¬x.Stuck cfg p) hinit ?_
    (fun _ _ _ h hl hn => h.step hl hn) ?_
  · rw [stuck_iff hinit]
    rintro (⟨-, -, hd⟩ | hd)
    · cases hd
    · cases hd
  · intro s l s' h hG hl hn
    rw [stuck_iff h] at hG
    rw [stuck_iff (h.step hl hn)]
    exact leavesRoom_iff h hG hl hn

instance (p : Tid) : DecidablePred (Dedicated p : Label Tid → Prop)
  | .base (.call t .poll) => inferInstanceAs (Decidable (t = p))
  | .base (.call _ (.pollInto _ _ _)) => isFalse id
  | .base (.call t (.submit _)) | .base (.call t .close) => inferInstanceAs (Decidable (t ≠ p))
  | .base (.step _ _) | .base (.complete _ _) | .base (.redeliver _) | .base (.setForceSyscall _)
  | .base .closeDumbHandlers | .enter _ _ | .leave _ => isTrue trivial

instance (p : Tid) (s : Reentrant Tid) : DecidablePred (s.LeavesRoom cfg p)
  | .enter _ (.submit _) =>
    inferInstanceAs (Decidable
      (cfg.useSemaphore = true → s.base.closed = false → 0 < s.base.ioSpace))
  | .base (.step t ans) =>
    inferInstanceAs (Decidable (if t = p then
      (s.base.pc p).submitsSentinel = true → ans.ioSubmit < 0
      else cfg.useSemaphore = true → (s.base.pc p).awaitsPermit = true →
        s.base.takes cfg (.step t ans) < s.base.ioSpace))
  | .base (.call _ _) | .base (.complete _ _) | .base (.redeliver _) | .base (.setForceSyscall _)
  | .base .closeDumbHandlers | .enter _ .close | .leave _ => isTrue trivial

/-- A context, and the labels that lead its poller, thread `false`, into the callback of
a write. -/
def sample (cfg : Config) : Reentrant Bool := ⟨.sample cfg, fun _ => none⟩

def inCallback : List (Label Bool) :=
  (submits true ⟨.pwrite, 5, 0, 512, some 1⟩).map .base ++
    [.base (.complete 0 512), .base (.call false .poll), .base (.step false {}),
      .base (.step false { events := 1 })] ++ (steps false 6).map .base

/-- A callback submits a read while there is a permit, and returns. -/
def resubmits : List (Label Bool) :=
  inCallback ++ [.enter false (.submit ⟨.pread, 5, 0, 512, some 2⟩)] ++
    (steps false 4).map .base ++ [.leave false] ++ (steps false 2).map .base

theorem unstuck_resubmits : ∃ s,
    Run (next ⟨2, true, true⟩) (fun _ => Dedicated false) (sample ⟨2, true, true⟩) resubmits s ∧
    ∀ ls₁ ls₂ x, resubmits = ls₁ ++ ls₂ →
      Run (next ⟨2, true, true⟩) (fun _ => Dedicated false) (sample ⟨2, true, true⟩) ls₁ x →
      ¬x.Stuck ⟨2, true, true⟩ false := by
  obtain ⟨s, hr, -⟩ := exists_run_of_exec (next ⟨2, true, true⟩)
    (fun s l => Dedicated false l ∧ s.LeavesRoom ⟨2, true, true⟩ false l) (sample ⟨2, true, true⟩)
    resubmits (fun s => s.base.ioSpace = 1) (by decide)
  have hr' := hr.mono fun _ _ h => h.1
  exact ⟨s, hr', (unstuck_iff hr').mpr hr⟩

/-- The callback of the only request of a context submits the next one. -/
theorem stuck_in_submit : ∃ s : Reentrant Bool,
    Reaches (next ⟨1, true, true⟩) (fun _ => Dedicated false) (sample ⟨1, true, true⟩) s ∧
      s.Stuck ⟨1, true, true⟩ false := by
  obtain ⟨s, hreach, hspace, hpc⟩ := exists_of_exec (next ⟨1, true, true⟩)
    (fun _ => Dedicated false) (sample ⟨1, true, true⟩)
    (inCallback ++ [.enter false (.submit ⟨.pread, 5, 0, 512, some 2⟩)])
    (fun s => s.base.ioSpace = 0 ∧ (s.base.pc false).awaitsPermit = true) (by decide)
  have hs := hreach.invariant (I := Served false) (served_initial _)
    fun _ _ _ h hl hn => h.step hl hn
  exact ⟨s, hreach, (stuck_iff hs).mpr (.inl ⟨rfl, hspace, hpc⟩)⟩

/-- A callback closes the context: `tryAcquire` gives up, and `deleteContext` waits for the
poller that called it. -/
theorem stuck_in_close : ∃ s : Reentrant Bool,
    Reaches (next ⟨2, true, true⟩) (fun _ => Dedicated false) (sample ⟨2, true, true⟩) s ∧
      s.Stuck ⟨2, true, true⟩ false := by
  obtain ⟨s, hreach, hpc⟩ := exists_of_exec (next ⟨2, true, true⟩)
    (fun _ => Dedicated false) (sample ⟨2, true, true⟩)
    (inCallback ++ [.enter false .close, .base (.step false { timedOut := true })] ++
      (steps false 3).map .base)
    (fun s => s.base.pc false = .close .lock) (by decide)
  have hs := hreach.invariant (I := Served false) (served_initial _)
    fun _ _ _ h hl hn => h.step hl hn
  exact ⟨s, hreach, (stuck_iff hs).mpr (.inr hpc)⟩

end Reentrant

end ArtemisNative
