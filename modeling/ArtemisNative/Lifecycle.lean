/-
ArtemisNative/Lifecycle.lean

The life of a request, as the log tells it.

An accepted request is submitted, completed, read by a poller and handled, and
each of these leaves an observation.  `Phase` is where a request is on this way,
and `Phase.script` what the log must by then say about it, word for word: what
`blockedPoll` and `poll(callbacks, ..)` are for, stated without iocbs, buffers
or references.

`Tracked` says that the log of a state is made of such scripts: each request in
transit has exactly the observations of its phase, and each one that is not in
transit any more has come to one of the ends (`Phase.Ended`).  A thread that is
inside a polling method determines the phases of the events of its batch
(`Stage.phases`, `Pc.phases`).

All this holds as long as callbacks return normally, arrays of callbacks are long
enough and the stop file stays the stop file (`Smooth`); null callbacks and user
requests on the stop file are allowed, and have scripts of their own.
-/
import ArtemisNative.Requests
import ArtemisNative.Lib.Tracking

namespace ArtemisNative

open Transition

variable {Tid : Type} [DecidableEq Tid] {cfg : Config} {s s' : State Tid} {t : Tid} {p : Pc}
variable {ans : Answer} {l : Label Tid}

/-! ### Requests -/

namespace Origin

def fd : Origin → ℤ
  | .user a => a.fd
  | .stop fd => fd

def callback : Origin → Option ℕ
  | .user a => a.callback
  | .stop _ => none

/-- `data` of its iocb is `NULL`. -/
def isNull : Origin → Bool
  | .user a => a.callback.isNone
  | .stop _ => false

variable {g : GlobalRefs} {m : Iocb} {data : IocbData} {origin : Origin}

theorem Fits.fd_eq (h : origin.Fits g m) : m.aio_fildes = origin.fd := by
  rw [h.2]
  cases origin <;> rfl

/-- The reference in `data` leads to the callback. -/
theorem Data.deref (h : origin.Data g data) : g.deref data = origin.callback := by
  cases origin with
  | user a =>
    cases hc : a.callback with
    | none =>
      simp only [Data, GlobalRefs.Names, hc] at h
      simp [h, GlobalRefs.deref, callback, hc]
    | some c =>
      simp only [Data, GlobalRefs.Names, hc] at h
      obtain ⟨r, rfl, hlive⟩ := h
      simp [GlobalRefs.deref, callback, hc, hlive]
  | stop fd =>
    obtain rfl : data = .stop := h
    rfl

theorem Data.null_iff (h : origin.Data g data) : data = .null ↔ origin.isNull = true := by
  cases origin with
  | user a =>
    cases hc : a.callback with
    | none =>
      simp only [Data, GlobalRefs.Names, hc] at h
      simp [h, isNull, hc]
    | some c =>
      simp only [Data, GlobalRefs.Names, hc] at h
      obtain ⟨r, rfl, -⟩ := h
      simp [isNull, hc]
  | stop fd =>
    obtain rfl : data = .stop := h
    simp [isNull]

/-- The test of `poll`: there is a callback. -/
theorem Data.callback_iff (h : origin.Data g data) :
    (data ≠ .null ∧ data ≠ .stop) ↔ origin.callback ≠ none := by
  cases origin with
  | user a =>
    cases hc : a.callback with
    | none =>
      simp only [Data, GlobalRefs.Names, hc] at h
      simp [h, callback, hc]
    | some c =>
      simp only [Data, GlobalRefs.Names, hc] at h
      obtain ⟨r, rfl, -⟩ := h
      simp [callback, hc]
  | stop fd =>
    obtain rfl : data = .stop := h
    simp [callback]

/-- The `onError` of `blockedPoll` and of `poll(callbacks, ..)`. -/
def notice (g : Origin) (o : ℕ) (res : ℤ) : List Obs :=
  if res < 0 ∧ g.isNull = false then [.onError o g.callback (-res)] else []

def pollNotice (g : Origin) (o : ℕ) (res : ℤ) : List Obs :=
  if res < 0 ∧ g.callback ≠ none then [.onError o g.callback (-res)] else []

/-- The entry of `poll(callbacks, ..)` in the array. -/
def entry (g : Origin) (o index : ℕ) : List Obs :=
  if g.callback ≠ none then [.stored o g.callback index] else []

end Origin

/-! ### Phases -/

/-- Where a request is.  From `completed` on its result is known. -/
inductive Phase
  | submitted
  | completed (res : ℤ)
  /-- in a batch of `blockedPoll`: taken for the sentinel, or handled -/
  | reaped (res : ℤ)
  | stopping (res : ℤ)
  | handling (res : ℤ)
  | noticed (res : ℤ)
  | warning (res : ℤ)
  | taken (res : ℤ)
  | putBack (res : ℤ)
  | called (res : ℤ)
  | returned (res : ℤ)
  /-- in a batch of `poll(callbacks, ..)` -/
  | polled (res : ℤ)
  | pollNoticed (res : ℤ)
  | stored (res : ℤ) (index : ℕ)
  /-- the ends -/
  | discarded (res : ℤ)
  | stopped (res : ℤ)
  | dropped (res : ℤ)
  | warned (res : ℤ)
  | reported (res : ℤ)
  | entered (res : ℤ) (index : ℕ)

/-- What the log says about request `o` when it is in a phase. -/
def Phase.script (cfg : Config) (g : Origin) (o : ℕ) : Phase → List Obs
  | .submitted => []
  | .completed res => [.completed o res]
  | .reaped res | .stopping res | .handling res | .warning res =>
    [.completed o res, .reaped o]
  | .noticed res | .taken res => [.completed o res, .reaped o] ++ g.notice o res
  | .putBack res => [.completed o res, .reaped o] ++ g.notice o res ++ [.putBack o]
  | .called res =>
    [.completed o res, .reaped o] ++ g.notice o res ++ [.putBack o, .done o g.callback]
  | .returned res =>
    [.completed o res, .reaped o] ++ g.notice o res ++
      [.putBack o, .done o g.callback, .returned o]
  | .polled res => [.completed o res, .polled o]
  | .pollNoticed res => [.completed o res, .polled o] ++ g.pollNotice o res
  | .stored res index =>
    [.completed o res, .polled o] ++ g.pollNotice o res ++ g.entry o index
  | .discarded res => [.completed o res, .discarded o]
  | .stopped res => [.completed o res, .reaped o, .stopped o]
  | .dropped res => [.completed o res, .reaped o, .dropped o]
  | .warned res => [.completed o res, .reaped o, .warned o]
  | .reported res =>
    [.completed o res, .reaped o] ++ g.notice o res ++
      [.putBack o, .done o g.callback, .returned o] ++
      if cfg.useSemaphore then [.released o] else []
  | .entered res index =>
    [.completed o res, .polled o] ++ g.pollNotice o res ++ g.entry o index ++ [.putBack o]

/-- What a request in the phase is known to be, against the stop file `h`. -/
def Phase.Needs (h : ℤ) (g : Origin) : Phase → Prop
  | .stopping _ | .stopped _ => g.fd = h
  | .handling _ | .noticed _ => g.fd ≠ h
  | .warning _ | .warned _ => g.fd ≠ h ∧ g.isNull = true
  | .taken _ | .putBack _ | .called _ | .returned _ | .reported _ =>
    g.fd ≠ h ∧ g.isNull = false
  | _ => True

/-! ### Phases of the requests in transit -/

def Request.submitted (r : Request) : ℕ × Phase := (r.op, .submitted)

def IoEvent.at (e : IoEvent) (φ : ℤ → Phase) : ℕ × Phase := (e.op, φ e.res)

def Stage.phases (events : ℕ → IoEvent) (f : Frame) : Stage → List (ℕ × Phase)
  | .test => (eventsFrom events f.i f.result).map (·.at .reaped)
  | .stop =>
    (events f.i).at .stopping :: (eventsFrom events (f.i + 1) f.result).map (·.at .reaped)
  | .sync | .onError =>
    (events f.i).at .handling :: (eventsFrom events (f.i + 1) f.result).map (·.at .reaped)
  | .take =>
    (events f.i).at .noticed :: (eventsFrom events (f.i + 1) f.result).map (·.at .reaped)
  | .put _ =>
    (events f.i).at .taken :: (eventsFrom events (f.i + 1) f.result).map (·.at .reaped)
  | .done _ =>
    (events f.i).at .putBack :: (eventsFrom events (f.i + 1) f.result).map (·.at .reaped)
  | .inDone _ =>
    (events f.i).at .called :: (eventsFrom events (f.i + 1) f.result).map (·.at .reaped)
  | .release _ =>
    (events f.i).at .returned :: (eventsFrom events (f.i + 1) f.result).map (·.at .reaped)
  | .deleteRef _ => (eventsFrom events (f.i + 1) f.result).map (·.at .reaped)
  | .warn =>
    (events f.i).at .warning :: (eventsFrom events (f.i + 1) f.result).map (·.at .reaped)

def Pc.phases (events : ℕ → IoEvent) : Pc → List (ℕ × Phase)
  | .blocked (.event f st) => st.phases events f
  | .poll (.event f .onError) => (eventsFrom events f.i f.result).map (·.at .polled)
  | .poll (.event f .store) =>
    (events f.i).at .pollNoticed :: (eventsFrom events (f.i + 1) f.result).map (·.at .polled)
  | .poll (.event f _) =>
    (events f.i).at (.stored · f.i) ::
      (eventsFrom events (f.i + 1) f.result).map (·.at .polled)
  | _ => []

theorem Pc.phases_of_not_inBatch (events events' : ℕ → IoEvent) (h : p.inBatch = false) :
    p.phases events = p.phases events' := by
  cases p with
  | blocked p =>
    cases p with
    | event f st => simp [inBatch] at h
    | _ => rfl
  | poll p =>
    cases p with
    | event f st => simp [inBatch] at h
    | _ => rfl
  | _ => rfl

namespace State

def phases (s : State Tid) : Option Tid → List (ℕ × Phase)
  | none => s.inflight.map (·.submitted) ++ s.ring.map (·.at .completed)
  | some t => (s.pc t).phases s.events

/-- The event of request `o` was behind one that `blockedPoll` took for the
sentinel. -/
def Behind (s : State Tid) (o : ℕ) : Prop :=
  ∃ z g, s.accepted[z]? = some g ∧ g.fd = s.dumbWriteHandler ∧
    [Obs.reaped z, Obs.reaped o].Sublist s.log

/-- The log explains the phase of request `o`. -/
def Logged (cfg : Config) (s : State Tid) (o : ℕ) (φ : Phase) (L : List Obs) : Prop :=
  ∃ g, s.accepted[o]? = some g ∧ φ.Needs s.dumbWriteHandler g ∧ L = φ.script cfg g o

/-- The ways in which a request ends.  The kernel may lose one that it has not
delivered, when the queue is released. -/
def Ended (s : State Tid) (o : ℕ) : Phase → Prop
  | .submitted | .completed _ | .discarded _ | .stopped _ | .warned _ | .reported _
  | .entered _ _ => True
  | .dropped _ => s.Behind o
  | _ => False

def Settled (cfg : Config) (s : State Tid) (o : ℕ) (L : List Obs) : Prop :=
  ∃ φ, s.Ended o φ ∧ s.Logged cfg o φ L

/-- The log is made of the scripts of the requests. -/
def Tracked (cfg : Config) (s : State Tid) : Prop :=
  Tracks Obs.op? (Finset.range s.accepted.length) s.phases s.log (s.Logged cfg) (s.Settled cfg)

end State

/-! ### Smooth runs -/

/-- Callbacks return normally, an array of callbacks is as long as the batch may
be, and the stop file is not closed. -/
def Smooth : Label Tid → Prop
  | .step _ ans => ans.throws = false
  | .call _ (.pollInto callbacks _ max) => max ≤ callbacks.length
  | .closeDumbHandlers => False
  | _ => True

omit [DecidableEq Tid] in
instance : DecidablePred (Smooth : Label Tid → Prop)
  | .step _ ans => inferInstanceAs (Decidable (ans.throws = false))
  | .call _ (.pollInto callbacks _ max) =>
    inferInstanceAs (Decidable (max ≤ callbacks.length))
  | .closeDumbHandlers => isFalse id
  | .call _ (.submit _) | .call _ .poll | .call _ .close | .complete _ _ | .redeliver _
  | .setForceSyscall _ => isTrue trivial

/-- No exception is pending, and the array is long enough. -/
def Pc.Untroubled : Pc → Prop
  | .blocked (.getEvents f) | .blocked (.event f _) => f.pending = false
  | .poll (.getEvents callbacks _ max) => max ≤ callbacks.length
  | .poll (.event f .onError) => f.pending = false ∧ f.result ≤ f.callbacks.length
  | .poll (.event f _) =>
    f.pending = false ∧ f.result ≤ f.callbacks.length ∧ f.i < f.result
  | .poll (.release _ _ pending) => pending = false
  | _ => True

theorem Untroubled.step (h : ∀ u, (s.pc u).Untroubled) (hsm : Smooth l)
    (hn : next cfg s l = some s') (u : Tid) : (s'.pc u).Untroubled := by
  have hgo : ∀ {t : Tid} {p : Pc}, s'.pc = Function.update s.pc t p → p.Untroubled →
      (s'.pc u).Untroubled := by
    intro t p hpc hp
    rw [hpc]
    by_cases hut : u = t
    · subst hut
      rwa [Function.update_self]
    · rw [Function.update_of_ne hut]
      exact h u
  cases next_moves hn with
  | call t o m _ hpc hm =>
    cases hm with
    | pollInto callbacks min max => exact hgo rfl hsm
    | _ => exact hgo rfl trivial
  | submit t ans q _ hpc hm => cases hm <;> exact hgo rfl trivial
  | blocked t ans q _ hpc hm =>
    have ht := h t
    rw [hpc] at ht
    cases hm with
    | locked _ => exact hgo rfl rfl
    | readInterrupted f _ => exact h u
    | read f k _ _ => exact hgo rfl ht
    | readFailed f _ | unlocked o => exact hgo rfl trivial
    | event f st _ hm =>
      cases hm with
      | errorCalled _ _ =>
        refine hgo rfl ?_
        show (f.pending || ans.throws) = false
        rw [show f.pending = false from ht, show ans.throws = false from hsm]
        rfl
      | doneThrew obj hthrow => rw [show ans.throws = false from hsm] at hthrow; cases hthrow
      | stopped => exact hgo rfl trivial
      | _ => exact hgo rfl ht
  | poll t ans q _ hpc hm =>
    have ht := h t
    rw [hpc] at ht
    cases hm with
    | readFailed callbacks min max _ => exact hgo rfl rfl
    | read callbacks min max k hmax _ =>
      have hle : max ≤ callbacks.length := ht
      refine hgo rfl ⟨rfl, ?_⟩
      show k ≤ callbacks.length
      omega
    | batchEnd f _ => exact hgo rfl ht.1
    | noError f hlt _ | errorSkipped f hlt _ _ => exact hgo rfl ⟨ht.1, ht.2, hlt⟩
    | errorCalled f hlt _ _ _ =>
      refine hgo rfl ⟨?_, ht.2, hlt⟩
      show (f.pending || ans.throws) = false
      rw [ht.1, show ans.throws = false from hsm]
      rfl
    | stored f _ _ _ => exact hgo rfl ⟨ht.1, by simpa [PollFrame.store] using ht.2⟩
    | storeThrew f _ hlen =>
      have hle : f.result ≤ f.callbacks.length := ht.2.1
      have hlt : f.i < f.result := ht.2.2
      omega
    | put f => exact hgo rfl ⟨ht.1, ht.2.1⟩
    | threw n callbacks | released n callbacks _ _ | notReleased n callbacks _ =>
      exact hgo rfl trivial
    | _ => exact hgo rfl ht
  | close t ans q _ hpc hm => cases hm <;> exact hgo rfl trivial
  | complete k res r hr _ => exact h u
  | redeliver k ev _ => exact h u
  | setForceSyscall value => exact h u
  | closeDumbHandlers => exact h u

/-! ### How steps write the log -/

namespace State

/-- What phases and scripts rest on, besides the program counters. -/
def life (s : State Tid) :=
  (s.accepted, s.dumbWriteHandler, s.inflight, s.ring, s.events)

variable {o k : ℕ} {φ : Phase} {L obs : List Obs} {rest : List (ℕ × Phase)}

theorem phases_of_life (hs : s'.life = s.life) (hpc : s'.pc = Function.update s.pc t p) :
    s'.phases = Function.update s.phases (some t) (p.phases s.events) := by
  simp only [life, Prod.mk.injEq] at hs
  obtain ⟨-, -, hi, hr, he⟩ := hs
  funext q
  cases q with
  | none => simp [phases, hi, hr]
  | some u =>
    by_cases hut : u = t
    · subst hut
      simp [phases, hpc, he]
    · simp [phases, hpc, he, hut]

omit [DecidableEq Tid] in
theorem Logged.mono (hacc : s.accepted <+: s'.accepted)
    (hh : s'.dumbWriteHandler = s.dumbWriteHandler) (h : s.Logged cfg o φ L) :
    s'.Logged cfg o φ L := by
  obtain ⟨g, hg, hneeds, hL⟩ := h
  exact ⟨g, getElem?_of_isPrefix hacc hg, hh ▸ hneeds, hL⟩

omit [DecidableEq Tid] in
theorem Settled.mono (hacc : s.accepted <+: s'.accepted)
    (hh : s'.dumbWriteHandler = s.dumbWriteHandler) (hlog : s.log <+: s'.log)
    (h : s.Settled cfg o L) : s'.Settled cfg o L := by
  obtain ⟨φ, hend, hL⟩ := h
  refine ⟨φ, ?_, hL.mono hacc hh⟩
  cases φ with
  | dropped res =>
    obtain ⟨z, g, hg, hfd, hsub⟩ := hend
    exact ⟨z, g, getElem?_of_isPrefix hacc hg, hh ▸ hfd, hsub.trans hlog.sublist⟩
  | _ => exact hend

omit [DecidableEq Tid] in
theorem Logged.of_life (hs : s'.life = s.life) (h : s.Logged cfg o φ L) :
    s'.Logged cfg o φ L := by
  simp only [life, Prod.mk.injEq] at hs
  exact h.mono (hs.1 ▸ List.prefix_rfl) hs.2.1

omit [DecidableEq Tid] in
theorem Settled.of_life (hs : s'.life = s.life) (hlog : s'.log = s.log ++ obs)
    (h : s.Settled cfg o L) : s'.Settled cfg o L := by
  simp only [life, Prod.mk.injEq] at hs
  exact h.mono (hs.1 ▸ List.prefix_rfl) hs.2.1 (hlog ▸ List.prefix_append _ _)

omit [DecidableEq Tid] in
/-- What a thread says about the event at hand takes its request to the next phase. -/
theorem Logged.go (ev : IoEvent) (φ φ' : ℤ → Phase) (hs : s'.life = s.life)
    (hstep : ∀ g, s.accepted[ev.op]? = some g → (φ ev.res).Needs s.dumbWriteHandler g →
      (φ' ev.res).Needs s.dumbWriteHandler g ∧ (φ' ev.res).script cfg g ev.op
        = (φ ev.res).script cfg g ev.op ++ about Obs.op? ev.op obs)
    (h : s.Logged cfg ev.op (φ ev.res) L) :
    s'.Logged cfg ev.op (φ' ev.res) (L ++ about Obs.op? ev.op obs) := by
  obtain ⟨g, hg, hneeds, rfl⟩ := h
  obtain ⟨hneeds', hscript⟩ := hstep g hg hneeds
  exact Logged.of_life hs ⟨g, hg, hneeds', hscript.symm⟩

/-- The thread goes on with the event at hand. -/
theorem Tracked.advance (ev : IoEvent) (φ φ' : ℤ → Phase) (h : s.Tracked cfg)
    (hs : s'.life = s.life) (hlog : s'.log = s.log ++ obs)
    (hpc : s'.pc = Function.update s.pc t p)
    (hbefore : (s.pc t).phases s.events = ev.at φ :: rest)
    (hafter : p.phases s.events = ev.at φ' :: rest)
    (hobs : ∀ ob ∈ obs, ob.op? = none ∨ ob.op? = some ev.op)
    (hstep : ∀ g, s.accepted[ev.op]? = some g → (φ ev.res).Needs s.dumbWriteHandler g →
      (φ' ev.res).Needs s.dumbWriteHandler g ∧ (φ' ev.res).script cfg g ev.op
        = (φ ev.res).script cfg g ev.op ++ about Obs.op? ev.op obs) : s'.Tracked cfg := by
  have hacc : s'.accepted = s.accepted := congrArg (·.1) hs
  rw [Tracked, phases_of_life hs hpc, hafter, hlog, hacc]
  exact Tracks.advance (p := some t) h hbefore hobs (fun _ => Logged.go ev φ φ' hs hstep)
    (fun k φ L => Logged.of_life hs) fun k L => Settled.of_life hs hlog

/-- The thread is done with the event at hand. -/
theorem Tracked.finish (ev : IoEvent) (φ φ' : ℤ → Phase) (h : s.Tracked cfg)
    (hs : s'.life = s.life) (hlog : s'.log = s.log ++ obs)
    (hpc : s'.pc = Function.update s.pc t p)
    (hbefore : (s.pc t).phases s.events = ev.at φ :: rest) (hafter : p.phases s.events = rest)
    (hobs : ∀ ob ∈ obs, ob.op? = none ∨ ob.op? = some ev.op) (hend : s'.Ended ev.op (φ' ev.res))
    (hstep : ∀ g, s.accepted[ev.op]? = some g → (φ ev.res).Needs s.dumbWriteHandler g →
      (φ' ev.res).Needs s.dumbWriteHandler g ∧ (φ' ev.res).script cfg g ev.op
        = (φ ev.res).script cfg g ev.op ++ about Obs.op? ev.op obs) : s'.Tracked cfg := by
  have hacc : s'.accepted = s.accepted := congrArg (·.1) hs
  rw [Tracked, phases_of_life hs hpc, hafter, hlog, hacc]
  exact Tracks.finish (p := some t) h hbefore hobs
    (fun _ hL => ⟨φ' ev.res, hend, Logged.go ev φ φ' hs hstep hL⟩)
    (fun k φ L => Logged.of_life hs) fun k L => Settled.of_life hs hlog

/-- The thread moves on and says nothing about requests. -/
theorem Tracked.quiet (h : s.Tracked cfg) (hs : s'.life = s.life)
    (hlog : s'.log = s.log ++ obs) (hpc : s'.pc = Function.update s.pc t p)
    (hp : p.phases s.events = (s.pc t).phases s.events) (hobs : ∀ ob ∈ obs, ob.op? = none) :
    s'.Tracked cfg := by
  have hacc : s'.accepted = s.accepted := congrArg (·.1) hs
  have hphases : s'.phases = s.phases := by
    rw [phases_of_life hs hpc, hp]
    exact Function.update_eq_self _ _
  rw [Tracked, hphases, hlog, hacc]
  exact Tracks.idle h hobs (fun k φ L => Logged.of_life hs) fun k L => Settled.of_life hs hlog

/-- `io_submit` accepts a request. -/
theorem Tracked.accept {b : ℕ} (h : s.Tracked cfg) (origin : Origin)
    (hs : s'.life = (s.accept b origin).life) (hlog : s'.log = s.log)
    (hpc : s'.pc = Function.update s.pc t p)
    (hp : p.phases s.events = (s.pc t).phases s.events) : s'.Tracked cfg := by
  have hacc : s'.accepted = s.accepted ++ [origin] := congrArg (·.1) hs
  have hh : s'.dumbWriteHandler = s.dumbWriteHandler := congrArg (·.2.1) hs
  have hprefix : s.accepted <+: s'.accepted := hacc ▸ List.prefix_append _ _
  have hphases : s'.phases = Function.update s.phases none
      (s.inflight.map (·.submitted) ++ (s.accepted.length, .submitted) ::
        s.ring.map (·.at .completed)) := by
    rw [phases_of_life hs hpc]
    funext q
    cases q with
    | none => simp [phases, State.accept, Request.submitted]
    | some u =>
      by_cases hut : u = t
      · subst hut
        simpa [phases, State.accept] using hp
      · simp [phases, State.accept, hut]
  have hrange : Finset.range s'.accepted.length
      = insert s.accepted.length (Finset.range s.accepted.length) := by
    rw [hacc, List.length_append, List.length_singleton, Finset.range_add_one]
  rw [Tracked, hphases, hlog, hrange]
  refine Tracks.gain (p := none) h Finset.notMem_range_self
    (List.perm_middle (a := (s.accepted.length, Phase.submitted))) ?_
    (fun k φ L => Logged.mono hprefix hh) fun k L => Settled.mono hprefix hh (hlog ▸ List.prefix_rfl)
  exact ⟨origin, by simp [hacc], trivial, rfl⟩

/-- The kernel completes a request. -/
theorem Tracked.complete {res : ℤ} {r : Request} (h : s.Tracked cfg)
    (hr : s.inflight[k]? = some r) : (s.complete k ⟨r.obj, res, r.op⟩).Tracked cfg := by
  let rest : List (ℕ × Phase) := (s.inflight.eraseIdx k).map (·.submitted) ++
    s.ring.map (·.at .completed)
  have hbefore : ((r.op, Phase.submitted) :: rest).Perm (s.phases none) := by
    obtain ⟨hk, rfl⟩ := List.getElem?_eq_some_iff.mp hr
    have hperm := (List.getElem_cons_eraseIdx_perm hk).map Request.submitted
    exact hperm.append_right (s.ring.map (·.at .completed))
  have hafter : (s.complete k ⟨r.obj, res, r.op⟩).phases = Function.update s.phases none
      (rest ++ [(r.op, .completed res)]) := by
    funext q
    cases q with
    | none => simp [phases, State.complete, rest, IoEvent.at]
    | some u => simp [phases, State.complete]
  have h₁ := Tracks.rearrange (p := none) h hbefore
  have h₂ : Tracks Obs.op? (Finset.range s.accepted.length)
      (Function.update (Function.update s.phases none ((r.op, .submitted) :: rest)) none
        ((r.op, .completed res) :: rest))
      (s.log ++ [.completed r.op res]) (s.Logged cfg)
      ((s.complete k ⟨r.obj, res, r.op⟩).Settled cfg) := by
    refine h₁.advance (Function.update_self ..) (by simp [Obs.op?]) ?_ (fun k φ L hL => hL)
      fun k L => Settled.mono List.prefix_rfl rfl (List.prefix_append _ _)
    rintro L ⟨g, hg, -, rfl⟩
    exact ⟨g, hg, trivial, by simp [Phase.script, about, Obs.op?]⟩
  have h₃ := h₂.rearrange (p := none) (l := rest ++ [(r.op, .completed res)])
    (by rw [Function.update_self]; exact List.perm_append_singleton _ _)
  rw [Function.update_idem, Function.update_idem] at h₃
  rw [Tracked, hafter]
  exact h₃

/-- What the kernel keeps when the `j` oldest events are read. -/
def kept (s : State Tid) (j : ℕ) : List (ℕ × Phase) :=
  s.inflight.map (·.submitted) ++ (s.ring.drop j).map (·.at .completed)

omit [DecidableEq Tid] in
theorem take_append_kept (s : State Tid) (j : ℕ) :
    ((s.ring.take j).map (·.at .completed) ++ s.kept j).Perm (s.phases none) := by
  have hring : s.ring.map (·.at .completed)
      = (s.ring.take j).map (·.at .completed) ++ (s.ring.drop j).map (·.at .completed) := by
    rw [← List.map_append, List.take_append_drop]
  rw [phases, hring, kept]
  exact List.perm_append_comm_assoc ..

theorem keys_at (events : List IoEvent) (φ : ℤ → Phase) :
    (events.map (·.at φ)).map Prod.fst = events.map (·.op) := by
  simp [List.map_map, Function.comp_def, IoEvent.at]

/-- A poller reads events into its batch. -/
theorem Tracked.read {j : ℕ} {obs : ℕ → Obs} (φ : ℤ → Phase) (h : s.Tracked cfg)
    (hj : j ≤ s.ring.length) (hs : s'.life = (s.getEvents j obs).life)
    (hlog : s'.log = (s.getEvents j obs).log) (hpc : s'.pc = Function.update s.pc t p)
    (hout : ∀ u, u ≠ t → (s.pc u).inBatch = false) (ht : (s.pc t).phases s.events = [])
    (hp : ∀ ev, p.phases ev = (eventsFrom ev 0 j).map (·.at φ))
    (hobs : ∀ o, (obs o).op? = some o)
    (hstep : ∀ o g res, (φ res).Needs s.dumbWriteHandler g ∧
      (φ res).script cfg g o = (Phase.completed res).script cfg g o ++ [obs o]) :
    s'.Tracked cfg := by
  let ops : List ℕ := (s.ring.take j).map (·.op)
  have hacc : s'.accepted = s.accepted := congrArg (·.1) hs
  have hh : s'.dumbWriteHandler = s.dumbWriteHandler := congrArg (·.2.1) hs
  have hlog' : s'.log = s.log ++ ops.map obs := by
    rw [hlog]
    simp [State.getEvents, ops, List.map_map, Function.comp_def]
  have hphases : s'.phases = Function.update (Function.update s.phases none (s.kept j)) (some t)
      ((s.ring.take j).map (·.at φ)) := by
    have he : s'.events = (s.getEvents j obs).events := congrArg (·.2.2.2.2) hs
    have hi : s'.inflight = s.inflight := congrArg (·.2.2.1) hs
    have hr : s'.ring = s.ring.drop j := congrArg (·.2.2.2.1) hs
    funext q
    cases q with
    | none => simp [phases, hi, hr, kept]
    | some u =>
      by_cases hut : u = t
      · subst hut
        rw [Function.update_self, phases, hpc, Function.update_self, hp, he,
          eventsFrom_getEvents obs hj]
      · have hne : some u ≠ some t := fun h => hut (Option.some.inj h)
        rw [Function.update_of_ne hne, Function.update_of_ne (Option.some_ne_none u), phases, hpc,
          Function.update_of_ne hut]
        exact Pc.phases_of_not_inBatch _ _ (hout u hut)
  have hsplit := s.take_append_kept j
  have hkeys : (ops ++ (s.kept j).map Prod.fst).Perm ((s.phases none).map Prod.fst) := by
    have := hsplit.map Prod.fst
    rwa [List.map_append, keys_at] at this
  have hnd : (ops ++ (s.kept j).map Prod.fst).Nodup :=
    hkeys.nodup_iff.mpr (Tracks.custody h |>.nodup none)
  rw [Tracked, hphases, hlog', hacc]
  refine Tracks.exchange (p := none) (q := some t) h (Option.some_ne_none t).symm ?_ ?_ ?_
    (fun k φ L => Logged.mono (hacc ▸ List.prefix_rfl) hh)
    fun k L => Settled.mono (hacc ▸ List.prefix_rfl) hh (hlog' ▸ List.prefix_append _ _)
  · have hempty : s.phases (some t) = [] := ht
    rw [hempty, keys_at, List.map_nil, List.append_nil]
    exact List.perm_append_comm.trans hkeys
  · intro ob hob k hk
    obtain ⟨o, ho, rfl⟩ := List.mem_map.mp hob
    obtain rfl := Option.some.inj ((hobs o).symm.trans hk)
    exact List.mem_append_left _ (hkeys.mem_iff.mp (List.mem_append_left _ ho))
  · intro k φ' hk
    rcases List.mem_append.mp hk with hk | hk
    · -- a request the kernel keeps
      refine ⟨φ', List.mem_append_left _ (hsplit.mem_iff.mp (List.mem_append_right _ hk)), ?_⟩
      have hnot : k ∉ ops := fun ho =>
        (List.nodup_append.mp hnd).2.2 k ho k (List.mem_map_of_mem hk) rfl
      intro L hL
      rw [about_map_of_notMem hobs hnot, List.append_nil]
      exact hL.mono (hacc ▸ List.prefix_rfl) hh
    · obtain ⟨e, he, heq⟩ := List.mem_map.mp hk
      obtain ⟨rfl, rfl⟩ := Prod.mk.inj heq
      refine ⟨.completed e.res, List.mem_append_left _ (hsplit.mem_iff.mp
        (List.mem_append_left _ (List.mem_map_of_mem (f := (IoEvent.at · .completed)) he))), ?_⟩
      rintro L ⟨g, hg, -, rfl⟩
      obtain ⟨hneeds, hscript⟩ := hstep e.op g e.res
      rw [about_map hobs (List.nodup_append.mp hnd).1 (List.mem_map_of_mem he)]
      exact ⟨g, hacc ▸ hg, hh ▸ hneeds, hscript.symm⟩

/-- The closing thread reads events and gives them up. -/
theorem Tracked.discard {j : ℕ} (h : s.Tracked cfg)
    (hs : s'.life = (s.getEvents j .discarded).life)
    (hlog : s'.log = (s.getEvents j .discarded).log) (hpc : s'.pc = Function.update s.pc t p)
    (hout : ∀ u, u ≠ t → (s.pc u).inBatch = false) (ht : (s.pc t).phases s.events = [])
    (hp : ∀ ev, p.phases ev = []) : s'.Tracked cfg := by
  let ops : List ℕ := (s.ring.take j).map (·.op)
  have hacc : s'.accepted = s.accepted := congrArg (·.1) hs
  have hh : s'.dumbWriteHandler = s.dumbWriteHandler := congrArg (·.2.1) hs
  have hprefix : s.accepted <+: s'.accepted := hacc ▸ List.prefix_rfl
  have hlog' : s'.log = s.log ++ ops.map Obs.discarded := by
    rw [hlog]
    simp [State.getEvents, ops, List.map_map, Function.comp_def]
  have hphases : s'.phases = Function.update s.phases none (s.kept j) := by
    have hi : s'.inflight = s.inflight := congrArg (·.2.2.1) hs
    have hr : s'.ring = s.ring.drop j := congrArg (·.2.2.2.1) hs
    funext q
    cases q with
    | none => simp [phases, hi, hr, kept]
    | some u =>
      rw [Function.update_of_ne (Option.some_ne_none u), phases, hpc]
      by_cases hut : u = t
      · subst hut
        rw [Function.update_self, hp]
        exact ht.symm
      · rw [Function.update_of_ne hut]
        exact Pc.phases_of_not_inBatch _ _ (hout u hut)
  have hobs : ∀ o, (Obs.discarded o).op? = some o := fun _ => rfl
  have hsplit := s.take_append_kept j
  have hkeys : (ops ++ (s.kept j).map Prod.fst).Perm ((s.phases none).map Prod.fst) := by
    have := hsplit.map Prod.fst
    rwa [List.map_append, keys_at] at this
  have hnd : (ops ++ (s.kept j).map Prod.fst).Nodup :=
    hkeys.nodup_iff.mpr (Tracks.custody h |>.nodup none)
  rw [Tracked, hphases, hlog', hacc]
  refine Tracks.change (p := none) h ?_ ?_ ?_ ?_ (fun k φ L => Logged.mono hprefix hh)
    fun k L => Settled.mono hprefix hh (hlog' ▸ List.prefix_append _ _)
  · exact (List.sublist_append_right ops _).subperm.trans hkeys.subperm
  · intro ob hob k hk
    obtain ⟨o, ho, rfl⟩ := List.mem_map.mp hob
    obtain rfl := Option.some.inj hk
    exact hkeys.mem_iff.mp (List.mem_append_left _ ho)
  · intro k φ hk
    refine ⟨φ, hsplit.mem_iff.mp (List.mem_append_right _ hk), fun L hL => ?_⟩
    have hnot : k ∉ ops := fun ho =>
      (List.nodup_append.mp hnd).2.2 k ho k (List.mem_map_of_mem hk) rfl
    rw [about_map_of_notMem hobs hnot, List.append_nil]
    exact hL.mono hprefix hh
  · intro k φ hk hno
    rcases List.mem_append.mp (hsplit.mem_iff.mpr hk) with hk | hk
    · obtain ⟨e, he, heq⟩ := List.mem_map.mp hk
      obtain ⟨rfl, rfl⟩ := Prod.mk.inj heq
      rintro L ⟨g, hg, -, rfl⟩
      rw [about_map hobs (List.nodup_append.mp hnd).1 (List.mem_map_of_mem he)]
      exact ⟨.discarded e.res, trivial, g, hacc ▸ hg, trivial, rfl⟩
    · exact absurd (List.mem_map_of_mem hk) hno

/-- `io_queue_release`: the kernel loses what it has not delivered. -/
theorem Tracked.release (h : s.Tracked cfg) (hacc : s'.accepted = s.accepted)
    (hh : s'.dumbWriteHandler = s.dumbWriteHandler) (hi : s'.inflight = [])
    (hr : s'.ring = []) (he : s'.events = s.events) (hlog : s'.log = s.log)
    (hpc : s'.pc = Function.update s.pc t p)
    (hp : p.phases s.events = (s.pc t).phases s.events) : s'.Tracked cfg := by
  have hprefix : s.accepted <+: s'.accepted := hacc ▸ List.prefix_rfl
  have hphases : s'.phases = Function.update s.phases none [] := by
    funext q
    cases q with
    | none => simp [phases, hi, hr]
    | some u =>
      by_cases hut : u = t
      · subst hut
        simp [phases, hpc, he, hp]
      · simp [phases, hpc, he, hut]
  have hlog' : s'.log = s.log ++ [] := by rw [hlog, List.append_nil]
  rw [Tracked, hphases, hlog', hacc]
  refine Tracks.change (p := none) h (List.nil_sublist _).subperm (by simp) nofun ?_
    (fun k φ L => Logged.mono hprefix hh)
    fun k L => Settled.mono hprefix hh (hlog ▸ List.prefix_rfl)
  intro k φ hk _ L hL
  rw [about_nil, List.append_nil]
  refine ⟨φ, ?_, hL.mono hprefix hh⟩
  rcases List.mem_append.mp hk with hk | hk
  · obtain ⟨r, -, heq⟩ := List.mem_map.mp hk
    obtain ⟨-, rfl⟩ := Prod.mk.inj heq
    trivial
  · obtain ⟨e, -, heq⟩ := List.mem_map.mp hk
    obtain ⟨-, rfl⟩ := Prod.mk.inj heq
    trivial

end State

/-! ### The order of a batch -/

/-- The number of events of the batch of a thread in `blockedPoll`. -/
def Pc.batch : Pc → Option ℕ
  | .blocked (.event f _) => some f.result
  | _ => none

/-- The log of a batch has its events in the order of the buffer. -/
def State.InOrder (s : State Tid) : Prop :=
  ∀ t n, (s.pc t).batch = some n →
    ((eventsFrom s.events 0 n).map fun e => Obs.reaped e.op).Sublist s.log

theorem State.InOrder.keep (h : s.InOrder) (he : s'.events = s.events) (hlog : s.log <+: s'.log)
    (hpc : s'.pc = Function.update s.pc t p) (hp : p.batch = (s.pc t).batch ∨ p.batch = none) :
    s'.InOrder := by
  intro u n hu
  rw [he]
  refine (h u n ?_).trans hlog.sublist
  rw [hpc] at hu
  by_cases hut : u = t
  · subst hut
    rw [Function.update_self] at hu
    rcases hp with hp | hp
    · exact hp ▸ hu
    · rw [hp] at hu
      cases hu
  · rwa [Function.update_of_ne hut] at hu

/-- A read leaves one batch, and its log is in order. -/
theorem State.InOrder.read {k : ℕ} {obs : ℕ → Obs} (hk : k ≤ s.ring.length)
    (he : s'.events = (s.getEvents k obs).events) (hlog : s'.log = (s.getEvents k obs).log)
    (hpc : s'.pc = Function.update s.pc t p) (hout : ∀ u, u ≠ t → (s.pc u).inBatch = false)
    (hp : p.batch = none ∨ (p.batch = some k ∧ obs = .reaped)) : s'.InOrder := by
  intro u n hu
  rw [hpc] at hu
  by_cases hut : u = t
  · subst hut
    rw [Function.update_self] at hu
    rcases hp with hp | ⟨hp, rfl⟩
    · rw [hp] at hu
      cases hu
    · obtain rfl : k = n := Option.some.inj (hp.symm.trans hu)
      rw [he, hlog, eventsFrom_getEvents _ hk]
      exact List.sublist_append_right _ _
  · rw [Function.update_of_ne hut] at hu
    have hin : (s.pc u).inBatch = true := by
      unfold Pc.batch at hu
      split at hu
      · rename_i hq
        rw [hq]
        rfl
      · cases hu
    rw [hout u hut] at hin
    cases hin

theorem State.InOrder.step (h : s.InOrder) (hal : ReadsAlone s l) (hn : next cfg s l = some s') :
    s'.InOrder := by
  cases next_moves hn with
  | call t o m _ hpc hm => cases hm <;> exact h.keep rfl List.prefix_rfl rfl (.inr rfl)
  | submit t ans q _ hpc hm => cases hm <;> exact h.keep rfl List.prefix_rfl rfl (.inr rfl)
  | blocked t ans q _ hpc hm =>
    cases hm with
    | readInterrupted f _ => exact h
    | read f k _ hk =>
      exact .read hk rfl rfl rfl (hal (by rw [hpc]; rfl)) (.inr ⟨rfl, rfl⟩)
    | event f st _ hm =>
      have hbatch : (s.pc t).batch = some f.result := by rw [hpc]; rfl
      cases hm with
      | stopped => exact h.keep rfl (List.prefix_append _ _) rfl (.inr rfl)
      | batchEnd _ => exact h.keep rfl List.prefix_rfl rfl (.inr rfl)
      | synced _ _ | errorCalled _ _ | put _ | doneCalled _ | doneReturned _ _ | released _ _
      | warned => exact h.keep rfl (List.prefix_append _ _) rfl (.inl hbatch.symm)
      | _ => exact h.keep rfl List.prefix_rfl rfl (.inl hbatch.symm)
    | _ => exact h.keep rfl List.prefix_rfl rfl (.inr rfl)
  | poll t ans q _ hpc hm =>
    cases hm with
    | read callbacks min max k _ hk =>
      exact .read hk rfl rfl rfl (hal (by rw [hpc]; rfl)) (.inl rfl)
    | errorCalled _ _ _ _ _ | stored _ _ _ _ | put _ | released _ _ _ _ =>
      exact h.keep rfl (List.prefix_append _ _) rfl (.inr rfl)
    | _ => exact h.keep rfl List.prefix_rfl rfl (.inr rfl)
  | close t ans q _ hpc hm =>
    cases hm with
    | read k _ hk => exact .read hk rfl rfl rfl (hal (by rw [hpc]; rfl)) (.inl rfl)
    | _ => exact h.keep rfl List.prefix_rfl rfl (.inr rfl)
  | complete k res r hr _ =>
    exact fun u n hu => (h u n hu).trans (List.sublist_append_left _ _)
  | redeliver k ev _ => exact h
  | setForceSyscall value => exact h
  | closeDumbHandlers => exact h

theorem eventsFrom_split {events : ℕ → IoEvent} {i n : ℕ} (h : i < n) :
    eventsFrom events 0 n
      = eventsFrom events 0 i ++ events i :: eventsFrom events (i + 1) n := by
  have hrange : List.range' 0 n = List.range' 0 i ++ List.range' i (n - i) := by
    have := List.range'_append_1 (s := 0) (m := i) (n := n - i)
    rw [Nat.zero_add, Nat.add_sub_cancel' (by omega)] at this
    exact this.symm
  rw [← eventsFrom_of_lt h]
  simp only [eventsFrom, Nat.sub_zero, hrange, List.map_append]

/-! ### Every step keeps it -/

/-- `blockedPoll` takes the event at hand for the sentinel and gives up the rest
of its batch. -/
theorem State.Tracked.stopped {f : Frame} {o : Outcome} (h : s.Tracked cfg) (hord : s.InOrder)
    (hpc : s.pc t = .blocked (.event f .stop)) (hs : s'.life = s.life)
    (hlog : s'.log = s.log ++ stopObs s f)
    (hpc' : s'.pc = Function.update s.pc t (.blocked (.unlock o))) : s'.Tracked cfg := by
  let rest : List IoEvent := eventsFrom s.events (f.i + 1) f.result
  have hacc : s'.accepted = s.accepted := congrArg (·.1) hs
  have hbefore : s.phases (some t)
      = (s.events f.i).at .stopping :: rest.map (·.at .reaped) := by
    rw [State.phases, hpc]
    rfl
  have hobs : stopObs s f
      = [.stopped (s.events f.i).op] ++ (rest.map (·.op)).map Obs.dropped := by
    simp [stopObs, rest, eventsFrom, List.map_map, Function.comp_def]
  have hdropped : ∀ o, (Obs.dropped o).op? = some o := fun _ => rfl
  have hkeys : (s.phases (some t)).map Prod.fst = (s.events f.i).op :: rest.map (·.op) := by
    rw [hbefore, List.map_cons, keys_at]
    rfl
  have hnd : ((s.events f.i).op :: rest.map (·.op)).Nodup :=
    hkeys ▸ (Tracks.custody h |>.nodup (some t))
  obtain ⟨hnot, hnd⟩ := List.nodup_cons.mp hnd
  rw [State.Tracked, phases_of_life hs hpc', hlog, hacc]
  refine Tracks.change (p := some t) h (List.nil_sublist _).subperm ?_ (by rintro k φ ⟨⟩) ?_
    (fun k φ L => State.Logged.of_life hs) fun k L => State.Settled.of_life hs hlog
  · intro ob hob k hk
    rw [hkeys]
    rcases List.mem_append.mp (hobs ▸ hob) with hob | hob
    · obtain rfl := List.mem_singleton.mp hob
      obtain rfl := Option.some.inj hk
      exact List.mem_cons_self
    · obtain ⟨o, ho, rfl⟩ := List.mem_map.mp hob
      obtain rfl := Option.some.inj hk
      exact List.mem_cons_of_mem _ ho
  · intro k φ hk _
    rw [hbefore] at hk
    rw [hobs]
    rcases List.mem_cons.mp hk with heq | hk
    · obtain ⟨rfl, rfl⟩ := Prod.mk.inj heq
      rintro L ⟨g, hg, hfd, rfl⟩
      refine ⟨.stopped (s.events f.i).res, trivial, State.Logged.of_life hs ⟨g, hg, hfd, ?_⟩⟩
      rw [about_append, about_map_of_notMem hdropped hnot]
      simp [Phase.script, about, Obs.op?]
    · obtain ⟨e, he, heq⟩ := List.mem_map.mp hk
      obtain ⟨rfl, rfl⟩ := Prod.mk.inj heq
      have hne : (s.events f.i).op ≠ e.op := fun hop => hnot (hop ▸ List.mem_map_of_mem he)
      have hbehind : s.Behind e.op := by
        obtain ⟨g, hg, hfd, -⟩ := Tracks.logged h (some t) _ _
          (hbefore ▸ List.mem_cons_self)
        refine ⟨(s.events f.i).op, g, hg, hfd, .trans ?_ (hord t f.result (by rw [hpc]; rfl))⟩
        have hlt : f.i < f.result := by
          by_contra hle
          rw [show rest = [] from eventsFrom_of_le (by omega)] at he
          cases he
        rw [eventsFrom_split hlt, List.map_append, List.map_cons]
        refine .trans (.cons_cons _ ?_) (List.sublist_append_right _ _)
        exact List.singleton_sublist.mpr (List.mem_map_of_mem (f := fun e => Obs.reaped e.op) he)
      rintro L ⟨g, hg, -, rfl⟩
      refine ⟨.dropped e.res, ?_, State.Logged.of_life hs ⟨g, hg, trivial, ?_⟩⟩
      · obtain ⟨z, gz, hz, hfd, hsub⟩ := hbehind
        have hh : s'.dumbWriteHandler = s.dumbWriteHandler := congrArg (·.2.1) hs
        exact ⟨z, gz, hacc ▸ hz, hh ▸ hfd,
          hsub.trans (hlog ▸ List.sublist_append_left _ _)⟩
      · rw [about_append, about_map hdropped hnd (List.mem_map_of_mem he), about_eq_nil]
        · simp [Phase.script]
        · simp [Obs.op?, hne]

omit [DecidableEq Tid] in
/-- The iocb of an event at hand is that of its request. -/
theorem Matched.at_hand {ev : IoEvent} {rest : List IoEvent} (h : Matched s)
    (hb : (s.view t).batch = ev :: rest) :
    ∃ g, s.accepted[ev.op]? = some g ∧ g.Fits s.refs (s.iocb ev.obj) := by
  refine h.transit (some t) ev.obj ev.op ?_
  simp [State.requests, hb]

theorem State.Tracked.event {f : Frame} {st : Stage} (h : s.Tracked cfg) (hmat : Matched s)
    (hord : s.InOrder) (hpend : f.pending = false) (hthrows : ans.throws = false)
    (hpc : s.pc t = .blocked (.event f st)) (hm : EventMoves cfg s t ans f st s') :
    s'.Tracked cfg := by
  -- the request of the event at hand is the one its iocb was prepared for
  have hfits : ∀ {rest}, (s.view t).batch = s.events f.i :: rest →
      ∀ g, s.accepted[(s.events f.i).op]? = some g →
        g.Fits s.refs (s.iocb (s.events f.i).obj) := by
    intro rest hb g hg
    obtain ⟨g', hg', hfit⟩ := hmat.at_hand hb
    obtain rfl := Option.some.inj (hg.symm.trans hg')
    exact hfit
  cases hm with
  | isStop hlt hfd =>
    refine h.advance (s.events f.i) .reaped .stopping rfl (List.append_nil _).symm rfl
      ?_ rfl (by simp) ?_
    · rw [hpc]
      simp only [Pc.phases, Stage.phases, eventsFrom_of_lt hlt]
      rfl
    · intro g hg _
      have hfit := hfits (by rw [State.view, hpc]; exact eventsFrom_of_lt hlt) g hg
      exact ⟨hfit.fd_eq.symm.trans hfd, by simp [Phase.script]⟩
  | isEvent hlt hfd =>
    refine h.advance (s.events f.i) .reaped .handling rfl (List.append_nil _).symm rfl
      ?_ rfl (by simp) ?_
    · rw [hpc]
      simp only [Pc.phases, Stage.phases, eventsFrom_of_lt hlt]
      rfl
    · intro g hg _
      have hfit := hfits (by rw [State.view, hpc]; exact eventsFrom_of_lt hlt) g hg
      exact ⟨fun he => hfd (hfit.fd_eq.trans he), by simp [Phase.script]⟩
  | batchEnd hle =>
    refine h.quiet rfl (List.append_nil _).symm rfl ?_ (by simp)
    rw [hpc]
    simp only [Pc.phases, Stage.phases, eventsFrom_of_le hle]
    rfl
  | stopped => exact h.stopped hord hpc rfl rfl rfl
  | synced _ _ => exact h.quiet rfl rfl rfl (by rw [hpc]; rfl) (by simp [Obs.op?])
  | notSynced _ => exact h.quiet rfl (List.append_nil _).symm rfl (by rw [hpc]; rfl) (by simp)
  | noError hres =>
    refine h.advance (s.events f.i) .handling .noticed rfl (List.append_nil _).symm rfl
      (by rw [hpc]; rfl) rfl (by simp) fun g hg hfd => ⟨hfd, ?_⟩
    simp [Phase.script, Origin.notice, hres]
  | errorNull hres hnull =>
    refine h.advance (s.events f.i) .handling .noticed rfl (List.append_nil _).symm rfl
      (by rw [hpc]; rfl) rfl (by simp) fun g hg hfd => ⟨hfd, ?_⟩
    have hfit := hfits (by rw [State.view, hpc]; rfl) g hg
    simp [Phase.script, Origin.notice, hfit.1.null_iff.mp hnull]
  | errorSkipped _ _ hp => simp [hpend] at hp
  | errorCalled hres hnull =>
    refine h.advance (s.events f.i) .handling .noticed rfl rfl rfl
      (by rw [hpc]; rfl) rfl (by simp [Obs.op?]) fun g hg hfd => ⟨hfd, ?_⟩
    have hfit := hfits (by rw [State.view, hpc]; rfl) g hg
    have hnot : g.isNull = false :=
      Bool.eq_false_iff.mpr fun h => hnull (hfit.1.null_iff.mpr h)
    simp [Phase.script, Origin.notice, hres, hnot, about, Obs.op?, hfit.1.deref]
  | takenNull hnull =>
    refine h.advance (s.events f.i) .noticed .warning rfl (List.append_nil _).symm rfl
      (by rw [hpc]; rfl) rfl (by simp) fun g hg hfd => ?_
    have hfit := hfits (by rw [State.view, hpc]; rfl) g hg
    have hnull := hfit.1.null_iff.mp hnull
    exact ⟨⟨hfd, hnull⟩, by simp [Phase.script, Origin.notice, hnull]⟩
  | taken hnull =>
    refine h.advance (s.events f.i) .noticed .taken rfl (List.append_nil _).symm rfl
      (by rw [hpc]; rfl) rfl (by simp) fun g hg hfd => ⟨⟨hfd, ?_⟩, by simp [Phase.script]⟩
    have hfit := hfits (by rw [State.view, hpc]; rfl) g hg
    exact Bool.eq_false_iff.mpr fun h => hnull (hfit.1.null_iff.mpr h)
  | put obj =>
    refine h.advance (s.events f.i) .taken .putBack rfl rfl rfl (by rw [hpc]; rfl) rfl
      (by simp [Obs.op?]) fun g hg hnull => ⟨hnull, ?_⟩
    simp [Phase.script, about, Obs.op?]
  | doneSkipped _ hp => simp [hpend] at hp
  | doneCalled obj =>
    refine h.advance (s.events f.i) .putBack .called rfl rfl rfl (by rw [hpc]; rfl) rfl
      (by simp [Obs.op?]) fun g hg hnull => ⟨hnull, ?_⟩
    obtain ⟨g', hg', hdata⟩ := hmat.hand t (s.events f.i).op obj (by rw [State.view, hpc]; rfl)
    obtain rfl := Option.some.inj (hg.symm.trans hg')
    simp [Phase.script, about, Obs.op?, hdata.deref]
  | doneThrew _ hthrow => simp [hthrows] at hthrow
  | doneReturned obj _ =>
    refine h.advance (s.events f.i) .called .returned rfl rfl rfl (by rw [hpc]; rfl) rfl
      (by simp [Obs.op?]) fun g hg hnull => ⟨hnull, ?_⟩
    simp [Phase.script, about, Obs.op?]
  | released obj hsem =>
    refine h.finish (s.events f.i) .returned .reported rfl rfl rfl (by rw [hpc]; rfl) rfl
      (by simp [Obs.op?]) trivial fun g hg hnull => ⟨hnull, ?_⟩
    simp [Phase.script, about, Obs.op?, hsem]
  | notReleased obj hsem =>
    refine h.finish (s.events f.i) .returned .reported rfl (List.append_nil _).symm rfl
      (by rw [hpc]; rfl) rfl (by simp) trivial fun g hg hnull => ⟨hnull, ?_⟩
    simp [Phase.script, hsem]
  | refDeleted obj =>
    exact h.quiet rfl (List.append_nil _).symm rfl (by rw [hpc]; rfl) (by simp)
  | warned =>
    refine h.finish (s.events f.i) .warning .warned rfl rfl rfl (by rw [hpc]; rfl) rfl
      (by simp [Obs.op?]) trivial fun g hg hnull => ⟨hnull, ?_⟩
    simp [Phase.script, about, Obs.op?]

theorem State.Tracked.poll {q : PollPc} (h : s.Tracked cfg) (hmat : Matched s)
    (hpc : s.pc t = .poll q) (hquiet : (s.pc t).Untroubled) (hal : ReadsAlone s (.step t ans))
    (hm : PollMoves cfg s t ans q s') : s'.Tracked cfg := by
  have hfits : ∀ {ev : IoEvent} {rest}, (s.view t).batch = ev :: rest →
      ∀ g, s.accepted[ev.op]? = some g → g.Fits s.refs (s.iocb ev.obj) := by
    intro ev rest hb g hg
    obtain ⟨g', hg', hfit⟩ := hmat.at_hand hb
    obtain rfl := Option.some.inj (hg.symm.trans hg')
    exact hfit
  rw [hpc] at hquiet
  cases hm with
  | read callbacks min max k _ hk =>
    refine h.read .polled hk rfl rfl rfl (hal (by rw [hpc]; rfl)) (by rw [hpc]; rfl)
      (fun _ => rfl) (fun _ => rfl) fun o g res => ⟨trivial, rfl⟩
  | batchEnd f hle =>
    refine h.quiet rfl (List.append_nil _).symm rfl ?_ (by simp)
    rw [hpc]
    simp only [Pc.phases, eventsFrom_of_le hle]
    rfl
  | noError f hlt hno =>
    refine h.advance (s.events f.i) .polled .pollNoticed rfl (List.append_nil _).symm rfl
      ?_ rfl (by simp) fun g hg _ => ⟨trivial, ?_⟩
    · rw [hpc]
      simp only [Pc.phases, eventsFrom_of_lt hlt]
      rfl
    · have hfit := hfits (by rw [State.view, hpc]; exact eventsFrom_of_lt hlt) g hg
      rw [hfit.1.callback_iff] at hno
      simp [Phase.script, Origin.pollNotice, hno]
  | errorSkipped f hlt _ hpend => simp [hquiet.1] at hpend
  | errorCalled f hlt hres hnull hstop =>
    refine h.advance (s.events f.i) .polled .pollNoticed rfl rfl rfl ?_ rfl (by simp [Obs.op?])
      fun g hg _ => ⟨trivial, ?_⟩
    · rw [hpc]
      simp only [Pc.phases, eventsFrom_of_lt hlt]
      rfl
    · have hfit := hfits (by rw [State.view, hpc]; exact eventsFrom_of_lt hlt) g hg
      have hcb := hfit.1.callback_iff.mp ⟨hnull, hstop⟩
      simp [Phase.script, Origin.pollNotice, hres, hcb, about, Obs.op?, hfit.1.deref]
  | stored f hnull hstop hlen =>
    refine h.advance (s.events f.i) .pollNoticed (.stored · f.i) rfl rfl rfl
      (by rw [hpc]; rfl) rfl (by simp [Obs.op?]) fun g hg _ => ⟨trivial, ?_⟩
    have hfit := hfits (by rw [State.view, hpc]; rfl) g hg
    have hcb := hfit.1.callback_iff.mp ⟨hnull, hstop⟩
    simp [Phase.script, Origin.entry, hcb, about, Obs.op?, hfit.1.deref]
  | storeThrew f _ hlen =>
    have hle : f.result ≤ f.callbacks.length := hquiet.2.1
    have hlt : f.i < f.result := hquiet.2.2
    omega
  | notStored f hno =>
    refine h.advance (s.events f.i) .pollNoticed (.stored · f.i) rfl (List.append_nil _).symm
      rfl (by rw [hpc]; rfl) rfl (by simp) fun g hg _ => ⟨trivial, ?_⟩
    have hfit := hfits (by rw [State.view, hpc]; rfl) g hg
    have hcb : ¬g.callback ≠ none := by
      rw [← hfit.1.callback_iff, not_and_or, not_not, not_not]
      exact hno
    simp [Phase.script, Origin.entry, hcb]
  | refDeleted f => exact h.quiet rfl (List.append_nil _).symm rfl (by rw [hpc]; rfl) (by simp)
  | put f =>
    refine h.finish (s.events f.i) (.stored · f.i) (.entered · f.i) rfl rfl rfl
      (by rw [hpc]; rfl) rfl (by simp [Obs.op?]) trivial fun g hg _ => ⟨trivial, ?_⟩
    simp [Phase.script, about, Obs.op?]
  | released n callbacks _ _ =>
    exact h.quiet rfl rfl rfl (by rw [hpc]; rfl) (by simp [Obs.op?])
  | _ => exact h.quiet rfl (List.append_nil _).symm rfl (by rw [hpc]; rfl) (by simp)

theorem State.Tracked.close {q : ClosePc} (h : s.Tracked cfg) (hpc : s.pc t = .close q)
    (hal : ReadsAlone s (.step t ans)) (hm : CloseMoves cfg s t ans q s') : s'.Tracked cfg := by
  cases hm with
  | accepted b _ _ =>
    exact h.accept (.stop (s.iocb b).aio_fildes) (b := b) rfl rfl rfl (by rw [hpc]; rfl)
  | read k _ hk =>
    exact h.discard rfl rfl rfl (hal (by rw [hpc]; rfl)) (by rw [hpc]; rfl) fun _ => rfl
  | queueReleased => exact h.release rfl rfl rfl rfl rfl rfl rfl (by rw [hpc]; rfl)
  | _ => exact h.quiet rfl (List.append_nil _).symm rfl (by rw [hpc]; rfl) (by simp)

/-- **The log is made of the scripts of the requests**, in every step of a smooth
run in which the kernel delivers each event once and no thread reads into a
buffer in use. -/
theorem State.Tracked.step (h : s.Tracked cfg) (hmat : Matched s) (hord : s.InOrder)
    (hquiet : ∀ u, (s.pc u).Untroubled) (hsm : Smooth l) (honce : DeliversOnce l)
    (hal : ReadsAlone s l) (hn : next cfg s l = some s') : s'.Tracked cfg := by
  cases next_moves hn with
  | call t o m _ hpc hm =>
    cases hm <;> exact h.quiet rfl (List.append_nil _).symm rfl (by rw [hpc]; rfl) (by simp)
  | submit t ans q _ hpc hm =>
    cases hm with
    | accepted a b _ _ => exact h.accept (.user a) (b := b) rfl rfl rfl (by rw [hpc]; rfl)
    | _ => exact h.quiet rfl (List.append_nil _).symm rfl (by rw [hpc]; rfl) (by simp)
  | blocked t ans q _ hpc hm =>
    cases hm with
    | readInterrupted f _ => exact h
    | read f k _ hk =>
      exact h.read .reaped hk rfl rfl rfl (hal (by rw [hpc]; rfl)) (by rw [hpc]; rfl)
        (fun _ => rfl) (fun _ => rfl) fun o g res => ⟨trivial, rfl⟩
    | event f st _ hm =>
      have hpend := hquiet t
      rw [hpc] at hpend
      exact h.event hmat hord hpend hsm hpc hm
    | _ => exact h.quiet rfl (List.append_nil _).symm rfl (by rw [hpc]; rfl) (by simp)
  | poll t ans q _ hpc hm => exact h.poll hmat hpc (hquiet t) hal hm
  | close t ans q _ hpc hm => exact h.close hpc hal hm
  | complete k res r hr _ => exact h.complete hr
  | redeliver k ev _ => exact honce.elim
  | setForceSyscall value => exact h
  | closeDumbHandlers => exact hsm.elim

omit [DecidableEq Tid] in
theorem State.Tracked.initial (env : Process) :
    (.initial cfg env : State Tid).Tracked cfg where
  custody := by
    have hH : (fun q => ((State.initial cfg env : State Tid).phases q).map Prod.fst)
        = fun _ => [] := by
      funext q
      cases q <;> rfl
    rw [hH]
    exact .empty
  logged := by
    intro q k φ hk
    cases q <;> simp [State.phases, State.initial, Pc.phases] at hk
  settled := by simp [State.initial]
  fresh := fun _ _ => rfl

/-! ### All invariants together -/

/-- What ties the pool, the iocbs, the batches and the log together. -/
structure Coherent (cfg : Config) (s : State Tid) : Prop where
  owned : Owned cfg s
  matched : Matched s
  inOrder : s.InOrder
  untroubled : ∀ u, (s.pc u).Untroubled
  tracked : s.Tracked cfg

theorem Coherent.step (h : Coherent cfg s) (hsm : Smooth l) (honce : DeliversOnce l)
    (hal : ReadsAlone s l) (hn : next cfg s l = some s') : Coherent cfg s' where
  owned := h.owned.step honce hal hn
  matched := h.matched.step h.owned honce hal hn
  inOrder := h.inOrder.step hal hn
  untroubled := Untroubled.step h.untroubled hsm hn
  tracked := h.tracked.step h.matched h.inOrder h.untroubled hsm honce hal hn

omit [DecidableEq Tid] in
theorem Coherent.initial (hq : 0 < cfg.queueSize) (env : Process) :
    Coherent cfg (.initial cfg env : State Tid) where
  owned := .initial hq env
  matched := .initial env
  inOrder := nofun
  untroubled := fun _ => trivial
  tracked := .initial env

end ArtemisNative
