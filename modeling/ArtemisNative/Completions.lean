/-
ArtemisNative/Completions.lean

A context is a completion queue.

What an application sees of a context is little: requests are accepted, the
kernel completes them, and `onError`, `done` and the array of `poll` hand them
back.  `CompletionQueue` says how such a service behaves, in terms of requests
alone.  This module shows that the context does nothing else, whichever threads
submit, poll in either mode and close, and however their steps are interleaved:

* a state of the context and one of the queue belong together (`State.Shows`)
  when the queue has what the log says, and waiting in it are the events that the
  poller has not handed over yet, in front of those in the completion ring;
* every step of the context is a run of the queue (`State.Shows.step`), most of
  them the empty run.

The iocbs and their reuse, the references, the events buffer, the locks and the
permits are gone at this level.
-/
import ArtemisNative.Drained
import ArtemisNative.Batch
import ArtemisNative.Lib.Completion
import ArtemisNative.Lib.Simulation

namespace ArtemisNative

open Transition

variable {Tid : Type} [DecidableEq Tid] {cfg : Config} {s s' : State Tid} {t u : Tid} {p q : Pc}
variable {ans : Answer} {l : Label Tid} {o : ℕ} {h : ℤ} {batch batch' : List IoEvent}
variable {obs : List Obs}

/-! ### What is seen of a context -/

def IoEvent.outcome (e : IoEvent) : ℕ × ℤ := (e.op, e.res)

namespace Obs

def completion? : Obs → Option (ℕ × ℤ)
  | .completed o res => some (o, res)
  | _ => none

/-- A notice, with the result it is about. -/
def notice? : Obs → Option (ℕ × Option ℕ × ℤ)
  | .onError o callback errno => some (o, callback, -errno)
  | _ => none

/-- The callback of a request is handed back: by `done`, or in the array. -/
def handed? : Obs → Option (ℕ × Option ℕ)
  | .done o callback => some (o, callback)
  | .stored o callback _ => some (o, callback)
  | _ => none

/-- Of no interest to the application. -/
def silent : Obs → Bool
  | .completed _ _ | .onError _ _ _ | .done _ _ | .stored _ _ _ => false
  | _ => true

theorem none_of_silent {ob : Obs} (hob : ob.silent = true) :
    ob.completion? = none ∧ ob.notice? = none ∧ ob.handed? = none := by
  cases ob with
  | completed _ _ | onError _ _ _ | done _ _ | stored _ _ _ => cases hob
  | _ => exact ⟨rfl, rfl, rfl⟩

end Obs

/-- Who gets a request back, which results are errors, and which requests end the
loop of `blockedPoll`. -/
def ioProtocol (stopFile : ℤ) : CompletionQueue.Protocol Origin ℤ (Option ℕ) where
  client g := g.callback.map some
  failed res := res < 0
  stops g := g.fd = stopFile

/-- The queue that `s` shows while `batch` is at hand. -/
def State.completions (s : State Tid) (batch : List IoEvent) :
    CompletionQueue Origin ℤ (Option ℕ) where
  accepted := s.accepted
  completed := s.log.filterMap Obs.completion?
  queue := (batch ++ s.ring).map IoEvent.outcome
  notices := s.log.filterMap Obs.notice?
  reports := s.log.filterMap Obs.handed?

/-- The runs of the queue. -/
def Queues (stopFile : ℤ) : CompletionQueue Origin ℤ (Option ℕ) →
    CompletionQueue Origin ℤ (Option ℕ) → Prop :=
  Reaches (CompletionQueue.next (ioProtocol stopFile)) fun _ _ => True

omit [DecidableEq Tid] in
/-- What is silent does not change the queue, nor do events that only move. -/
theorem State.completions_quiet (hacc : s'.accepted = s.accepted) (hlog : s'.log = s.log ++ obs)
    (hobs : ∀ ob ∈ obs, ob.silent = true) (hqueue : batch' ++ s'.ring = batch ++ s.ring) :
    s'.completions batch' = s.completions batch := by
  have hnone : ∀ {β : Type} (f : Obs → Option β), (∀ ob ∈ obs, f ob = none) →
      s'.log.filterMap f = s.log.filterMap f := by
    intro β f hf
    rw [hlog, List.filterMap_append, List.filterMap_eq_nil_iff.mpr hf, List.append_nil]
  have hsilent := fun ob hob => Obs.none_of_silent (hobs ob hob)
  simp only [State.completions, CompletionQueue.mk.injEq]
  exact ⟨hacc, hnone _ fun ob hob => (hsilent ob hob).1, by rw [hqueue],
    hnone _ fun ob hob => (hsilent ob hob).2.1, hnone _ fun ob hob => (hsilent ob hob).2.2⟩

/-! ### Notices in the log -/

omit [DecidableEq Tid] in
theorem State.mem_notices : o ∈ (s.log.filterMap Obs.notice?).map Prod.fst ↔
    ∃ callback errno, Obs.onError o callback errno ∈ about Obs.op? o s.log := by
  rw [List.mem_map]
  constructor
  · rintro ⟨⟨_, callback, res⟩, hx, rfl⟩
    obtain ⟨ob, hob, hx⟩ := List.mem_filterMap.mp hx
    cases ob with
    | onError o callback errno =>
      obtain ⟨rfl, -⟩ := Prod.mk.inj (Option.some.inj hx)
      exact ⟨callback, errno, mem_about hob rfl⟩
    | _ => cases hx
  · rintro ⟨callback, errno, hob⟩
    exact ⟨(o, callback, -errno),
      List.mem_filterMap.mpr ⟨_, (List.mem_filter.mp hob).1, rfl⟩, rfl⟩

omit [DecidableEq Tid] in
theorem State.mem_completions {x : ℕ × ℤ} :
    x ∈ s.log.filterMap Obs.completion? ↔ .completed x.1 x.2 ∈ s.log := by
  rw [List.mem_filterMap]
  constructor
  · rintro ⟨ob, hob, hx⟩
    cases ob with
    | completed o res =>
      obtain rfl := Option.some.inj hx
      exact hob
    | _ => cases hx
  · exact fun hob => ⟨_, hob, rfl⟩

/-! ### The events at hand -/

/-- The events of its batch that the thread has not handed over. -/
def Pc.waiting (events : ℕ → IoEvent) : Pc → List IoEvent
  | .blocked (.event f (.inDone _)) | .blocked (.event f (.release _))
  | .blocked (.event f (.deleteRef _)) => eventsFrom events (f.i + 1) f.result
  | .blocked (.event f .test) => eventsFrom events f.i f.result
  | .blocked (.event f _) => events f.i :: eventsFrom events (f.i + 1) f.result
  | .poll (.event f .onError) => eventsFrom events f.i f.result
  | .poll (.event f .store) => events f.i :: eventsFrom events (f.i + 1) f.result
  | .poll (.event f _) => eventsFrom events (f.i + 1) f.result
  | _ => []

theorem Pc.waiting_of_not_inBatch (events : ℕ → IoEvent) (hp : p.inBatch = false) :
    p.waiting events = [] := by
  cases p with
  | blocked p =>
    cases p with
    | event f st => cases hp
    | _ => rfl
  | poll p =>
    cases p with
    | event f st => cases hp
    | _ => rfl
  | _ => rfl

/-- `batch` is what the thread in the loop over a batch has at hand, if there is
one. -/
structure State.Waits (s : State Tid) (batch : List IoEvent) : Prop where
  inside : ∀ t, (s.pc t).inBatch = true → batch = (s.pc t).waiting s.events
  outside : (∀ t, (s.pc t).inBatch = false) → batch = []

omit [DecidableEq Tid] in
/-- It is what `t` has at hand when no other thread is in the loop. -/
theorem State.Waits.eq (hw : s.Waits batch) (hout : ∀ u, u ≠ t → (s.pc u).inBatch = false) :
    batch = (s.pc t).waiting s.events := by
  cases ht : (s.pc t).inBatch with
  | true => exact hw.inside t ht
  | false =>
    rw [Pc.waiting_of_not_inBatch _ ht]
    refine hw.outside fun u => ?_
    by_cases hut : u = t
    · rwa [hut]
    · exact hout u hut

/-- A step of the only thread in the loop. -/
theorem State.Waits.goto (hpc : s'.pc = Function.update s.pc t p)
    (hout : ∀ u, u ≠ t → (s.pc u).inBatch = false) : s'.Waits (p.waiting s'.events) where
  inside := by
    intro u hu
    rcases pc_cases hpc u with ⟨-, hq⟩ | ⟨hut, hq⟩
    · rw [hq]
    · rw [hq, hout u hut] at hu
      cases hu
  outside := by
    intro hnone
    have ht := hnone t
    rw [hpc, Function.update_self] at ht
    exact Pc.waiting_of_not_inBatch _ ht

/-- A step outside the loop. -/
theorem State.Waits.aside (hw : s.Waits batch) (he : s'.events = s.events)
    (hpc : s'.pc = Function.update s.pc t p) (ht : (s.pc t).inBatch = false)
    (hp : p.inBatch = false) : s'.Waits batch where
  inside := by
    intro u hu
    rcases pc_cases hpc u with ⟨-, hq⟩ | ⟨-, hq⟩
    · rw [hq, hp] at hu
      cases hu
    · rw [hq] at hu ⊢
      rw [he]
      exact hw.inside u hu
  outside := by
    intro hnone
    refine hw.outside fun u => ?_
    rcases pc_cases hpc u with ⟨rfl, -⟩ | ⟨-, hq⟩
    · exact ht
    · exact hq ▸ hnone u

omit [DecidableEq Tid] in
theorem State.Waits.of_same (hw : s.Waits batch) (he : s'.events = s.events)
    (hpc : s'.pc = s.pc) : s'.Waits batch where
  inside := by
    rw [he, hpc]
    exact hw.inside
  outside := by
    rw [hpc]
    exact hw.outside

/-! ### Invariants -/

/-- At most one thread is in the loop over a batch. -/
def SoleBatch (s : State Tid) : Prop :=
  ∀ t u, (s.pc t).inBatch = true → (s.pc u).inBatch = true → t = u

omit [DecidableEq Tid] in
theorem SoleBatch.out (hs : SoleBatch s) (ht : (s.pc t).inBatch = true) (hut : u ≠ t) :
    (s.pc u).inBatch = false :=
  Bool.eq_false_iff.mpr fun hu => hut (hs u t hu ht)

theorem SoleBatch.step (hs : SoleBatch s) (hal : ReadsAlone s l)
    (hn : next cfg s l = some s') : SoleBatch s' := by
  -- who reads is alone then
  have hread : ∀ {t u}, (∃ ans, l = .step t ans) ∧ (s.pc t).atRead = true →
      (s.pc u).inBatch = true → t = u := by
    rintro t u ⟨⟨ans, rfl⟩, hat⟩ hu
    by_contra hne
    rw [hal hat u (Ne.symm hne)] at hu
    cases hu
  intro t u ht hu
  rcases next_inBatch hn ht with ht | ht <;> rcases next_inBatch hn hu with hu | hu
  · exact hs t u ht hu
  · exact (hread hu ht).symm
  · exact hread ht hu
  · obtain ⟨⟨ans, rfl⟩, -⟩ := ht
    obtain ⟨⟨ans', hl⟩, -⟩ := hu
    exact (Label.step.inj hl).1

/-- Behind the submission of the sentinel it has been accepted. -/
def Announced (s : State Tid) : Prop :=
  ∀ t q, s.pc t = .close q → q.submitted = true →
    ∃ g ∈ s.accepted, g.fd = s.dumbWriteHandler

theorem Announced.step (ha : Announced s) (hsent : OneSentinel s)
    (hne : l ≠ .closeDumbHandlers) (hn : next cfg s l = some s') : Announced s' := by
  have hh := next_handler hn hne
  have hmore : (∃ g ∈ s.accepted, g.fd = s.dumbWriteHandler) →
      ∃ g ∈ s'.accepted, g.fd = s'.dumbWriteHandler := by
    rintro ⟨g, hg, hfd⟩
    exact ⟨g, (next_appends hn).1.subset hg, hh ▸ hfd⟩
  intro u q' hu hq'
  rcases next_close_cases hn with ⟨t, ans, q, rfl, hpc, hm⟩ | ⟨t, -, rfl⟩ | ⟨-, hpcs⟩
  · by_cases hut : u = t
    · subst hut
      cases hm with
      | accepted b _ _ =>
        refine ⟨.stop (s.iocb b).aio_fildes,
          List.mem_append_right _ (List.mem_singleton_self _), ?_⟩
        exact hsent.prepared u b hpc
      | locked _ | unlocked | readFailed _ | read _ _ _ | put _ _ _ | batchEnd _ _ _
      | queueReleased | destroyed => exact hmore (ha u _ hpc rfl)
      | _ =>
        rw [State.pc_goto] at hu
        cases hu <;> cases hq'
    · rw [next_pc_of_ne hn fun he => hut (Option.some.inj he).symm] at hu
      exact hmore (ha u q' hu hq')
  · by_cases hut : u = t
    · subst hut
      rw [State.pc_goto] at hu
      cases hu
      cases hq'
    · simp only [State.goto, Function.update_of_ne hut] at hu
      exact ha u q' hu hq'
  · rw [hpcs u (by rw [hu]; rfl)] at hu
    exact hmore (ha u q' hu hq')

/-- The runs considered: callbacks return, arrays are long enough, nobody removes
the stop file, the kernel delivers each event once, and a thread does not read
into a buffer in use. -/
def InService (s : State Tid) (l : Label Tid) : Prop := Smooth l ∧ Orderly s l

instance [Fintype Tid] (s : State Tid) : DecidablePred (InService s) := fun _ =>
  inferInstanceAs (Decidable (_ ∧ _))

structure Serving (cfg : Config) (h : ℤ) (s : State Tid) : Prop where
  coherent : Coherent cfg s
  closer : SoleCloser s
  sentinel : OneSentinel s
  sole : SoleBatch s
  announced : Announced s
  handler : s.dumbWriteHandler = h

theorem Serving.step (hv : Serving cfg h s) (hl : InService s l)
    (hn : next cfg s l = some s') : Serving cfg h s' := by
  have hne : l ≠ .closeDumbHandlers := by
    rintro rfl
    exact hl.1
  exact {
    coherent := hv.coherent.step hl.1 hl.2.1 hl.2.2 hn
    closer := hv.closer.step hn
    sentinel := hv.sentinel.step hv.coherent.owned hv.closer hne hn
    sole := hv.sole.step hl.2.2 hn
    announced := hv.announced.step hv.sentinel hne hn
    handler := (next_handler hn hne).trans hv.handler }

omit [DecidableEq Tid] in
theorem Serving.initial (hq : 0 < cfg.queueSize) (env : Process) :
    Serving cfg env.dumbWriteHandler (.initial cfg env : State Tid) where
  coherent := .initial hq env
  closer := .initial env
  sentinel := .initial env
  sole := fun t _ ht => by cases ht
  announced := fun t _ ht => by cases ht
  handler := rfl

omit [DecidableEq Tid] in
/-- What is known of an event at hand. -/
theorem Serving.phase {φ : Phase} (hv : Serving cfg h s)
    (hmem : (o, φ) ∈ (s.pc t).phases s.events) :
    ∃ g, s.accepted[o]? = some g ∧ φ.Needs s.dumbWriteHandler g ∧
      about Obs.op? o s.log = φ.script cfg g o :=
  Tracks.logged hv.coherent.tracked (some t) o φ hmem

omit [DecidableEq Tid] in
/-- What is known of it before its iocb has been looked into. -/
theorem Serving.at_hand {e : IoEvent} {rest : List IoEvent} {φ : Phase} (hv : Serving cfg h s)
    (hmem : (e.op, φ) ∈ (s.pc t).phases s.events) (hb : (s.view t).batch = e :: rest) :
    ∃ g, s.accepted[e.op]? = some g ∧ φ.Needs s.dumbWriteHandler g ∧
      about Obs.op? e.op s.log = φ.script cfg g e.op ∧ g.Fits s.refs (s.iocb e.obj) := by
  obtain ⟨g, hg, hneeds, hlog⟩ := hv.phase hmem
  obtain ⟨g', hg', hfit⟩ := hv.coherent.matched.at_hand hb
  obtain rfl := Option.some.inj (hg'.symm.trans hg)
  exact ⟨g', hg, hneeds, hlog, hfit⟩

omit [DecidableEq Tid] in
/-- A request on another descriptor than the stop file has a client, unless it was
submitted with `null`. -/
theorem Serving.callback {g : Origin} (hv : Serving cfg h s) (hg : s.accepted[o]? = some g)
    (hfd : g.fd ≠ s.dumbWriteHandler) (hnull : g.isNull = false) :
    ∃ c, g.callback = some c := by
  cases g with
  | user a =>
    apply Option.isSome_iff_exists.mp
    rw [← Option.isNone_eq_false_iff]
    exact hnull
  | stop fd => exact absurd (hv.sentinel.handler fd (List.mem_of_getElem? hg)) hfd

omit [DecidableEq Tid] in
theorem State.client_eq {g : Origin} (hg : s.accepted[o]? = some g) :
    (s.completions batch).client (ioProtocol h) o = g.callback.map some := by
  show (s.accepted[o]?).bind (ioProtocol h).client = _
  rw [hg]
  rfl

omit [DecidableEq Tid] in
theorem State.stopping_of {g : Origin} (hg : g ∈ s.accepted) (hfd : g.fd = h) :
    (s.completions batch).stopping (ioProtocol h) = true :=
  List.any_eq_true.mpr ⟨g, hg, decide_eq_true hfd⟩

/-! ### The steps of the context, as steps of the queue -/

omit [DecidableEq Tid] in
theorem serves_quiet (hacc : s'.accepted = s.accepted) (hlog : s'.log = s.log ++ obs)
    (hobs : ∀ ob ∈ obs, ob.silent = true) (hqueue : batch' ++ s'.ring = batch ++ s.ring) :
    Queues h (s.completions batch) (s'.completions batch') := by
  rw [State.completions_quiet hacc hlog hobs hqueue]
  exact .refl _

omit [DecidableEq Tid] in
/-- `io_submit` accepts a request. -/
theorem serves_accept (b : ℕ) (g : Origin) (hacc : s'.accepted = (s.accept b g).accepted)
    (hlog : s'.log = s.log) (hring : s'.ring = s.ring) :
    Queues h (s.completions batch) (s'.completions batch) := by
  have heq : s'.completions batch =
      { s.completions batch with accepted := (s.completions batch).accepted ++ [g] } := by
    simp only [State.completions, hacc, hlog, hring, State.accept]
  rw [heq]
  exact (CompletionQueue.Step.accept g).reaches

omit [DecidableEq Tid] in
/-- The kernel completes one. -/
theorem Serving.serves_complete {k : ℕ} {r : Request} {res : ℤ} (hv : Serving cfg h s)
    (hr : s.inflight[k]? = some r) : Queues h (s.completions batch)
      ((s.complete k ⟨r.obj, res, r.op⟩).completions batch) := by
  have hmem : (r.op, Phase.submitted) ∈ s.phases none :=
    List.mem_append_left _ (List.mem_map_of_mem (f := Request.submitted) (List.mem_of_getElem? hr))
  obtain ⟨g, hg, -, hlog⟩ := Tracks.logged hv.coherent.tracked none _ _ hmem
  have hnew : r.op ∉ (s.log.filterMap Obs.completion?).map Prod.fst := by
    intro hm
    obtain ⟨x, hx, hop⟩ := List.mem_map.mp hm
    have hob := mem_about (State.mem_completions.mp hx) (o := r.op) (congrArg some hop)
    rw [hlog] at hob
    cases hob
  have heq : (s.complete k ⟨r.obj, res, r.op⟩).completions batch =
      { s.completions batch with
        completed := (s.completions batch).completed ++ [(r.op, res)]
        queue := (s.completions batch).queue ++ [(r.op, res)] } := by
    simp [State.completions, State.complete, Obs.completion?, Obs.notice?, Obs.handed?,
      IoEvent.outcome]
  rw [heq]
  exact (CompletionQueue.Step.complete r.op res (List.getElem?_eq_some_iff.mp hg).1 hnew).reaches

omit [DecidableEq Tid] in
/-- `onError` is called for the event at hand. -/
theorem serves_notice {e : IoEvent} {rest : List IoEvent} {g : Origin} {c : ℕ}
    (hg : s.accepted[e.op]? = some g) (hc : g.callback = some c) (hres : e.res < 0)
    (hnew : ∀ callback errno, Obs.onError e.op callback errno ∉ about Obs.op? e.op s.log)
    (hacc : s'.accepted = s.accepted) (hring : s'.ring = s.ring)
    (hlog : s'.log = s.log ++ [.onError e.op g.callback (-e.res)]) :
    Queues h (s.completions (e :: rest)) (s'.completions (e :: rest)) := by
  have heq : s'.completions (e :: rest) = { s.completions (e :: rest) with
      notices := (s.completions (e :: rest)).notices ++ [(e.op, some c, e.res)] } := by
    simp [State.completions, hacc, hring, hlog, hc, Obs.completion?, Obs.notice?, Obs.handed?]
  rw [heq]
  refine (CompletionQueue.Step.notice e.op e.res _ (some c) rfl ?_ (decide_eq_true hres) ?_).reaches
  · rw [State.client_eq hg, hc]
    rfl
  · intro hm
    obtain ⟨callback, errno, hob⟩ := State.mem_notices.mp hm
    exact hnew callback errno hob

omit [DecidableEq Tid] in
/-- The callback of the event at hand is handed back. -/
theorem serves_report {e : IoEvent} {rest : List IoEvent} {g : Origin} {c : ℕ} {ob : Obs}
    (hg : s.accepted[e.op]? = some g) (hc : g.callback = some c)
    (hsaid : e.res < 0 → ∃ callback errno,
      Obs.onError e.op callback errno ∈ about Obs.op? e.op s.log)
    (hacc : s'.accepted = s.accepted) (hring : s'.ring = s.ring) (hlog : s'.log = s.log ++ [ob])
    (hob : ob.completion? = none ∧ ob.notice? = none ∧ ob.handed? = some (e.op, g.callback)) :
    Queues h (s.completions (e :: rest)) (s'.completions rest) := by
  have heq : s'.completions rest = { s.completions (e :: rest) with
      queue := (rest ++ s.ring).map IoEvent.outcome
      reports := (s.completions (e :: rest)).reports ++ [(e.op, some c)] } := by
    simp [State.completions, hacc, hring, hlog, hob, hc]
  rw [heq]
  refine (CompletionQueue.Step.report e.op e.res _ (some c) rfl ?_ fun hfail => ?_).reaches
  · rw [State.client_eq hg, hc]
    rfl
  · exact State.mem_notices.mpr (hsaid (of_decide_eq_true hfail))

omit [DecidableEq Tid] in
/-- The event at hand is one nobody waits for. -/
theorem serves_skip {e : IoEvent} {rest : List IoEvent} {g : Origin}
    (hg : s.accepted[e.op]? = some g) (hc : g.callback = none)
    (hacc : s'.accepted = s.accepted) (hring : s'.ring = s.ring) (hlog : s'.log = s.log ++ obs)
    (hobs : ∀ ob ∈ obs, ob.silent = true) :
    Queues h (s.completions (e :: rest)) (s'.completions rest) := by
  have heq : s'.completions rest = s.completions rest :=
    State.completions_quiet hacc hlog hobs (by rw [hring])
  rw [heq]
  refine (CompletionQueue.Step.skip e.op e.res _ rfl (.inl ?_)).reaches
  rw [State.client_eq hg, hc]
  rfl

omit [DecidableEq Tid] in
/-- Events are ignored since a request on the stop file has come. -/
theorem serves_drop (dropped : List IoEvent) {g : Origin} (hg : g ∈ s.accepted)
    (hfd : g.fd = h) (hacc : s'.accepted = s.accepted) (hlog : s'.log = s.log ++ obs)
    (hobs : ∀ ob ∈ obs, ob.silent = true)
    (hqueue : batch ++ s.ring = dropped ++ (batch' ++ s'.ring)) :
    Queues h (s.completions batch) (s'.completions batch') := by
  have hskip : Queues h (s.completions batch) { s.completions batch with
      queue := (batch' ++ s'.ring).map IoEvent.outcome } := by
    apply CompletionQueue.reaches_skip (State.stopping_of hg hfd)
    show (batch ++ s.ring).map IoEvent.outcome = dropped.map IoEvent.outcome ++ _
    rw [hqueue, List.map_append]
  have heq : s'.completions batch' = { s.completions batch with
      queue := (batch' ++ s'.ring).map IoEvent.outcome } := by
    have hq : State.completions { s' with ring := s.ring } batch = s.completions batch :=
      State.completions_quiet hacc hlog hobs rfl
    simp only [State.completions, CompletionQueue.mk.injEq] at hq ⊢
    exact ⟨hq.1, hq.2.1, trivial, hq.2.2.2⟩
  rw [heq]
  exact hskip

/-- Inside the loop of `blockedPoll` over its batch. -/
theorem Serving.serves_event {f : Frame} {st : Stage} (hv : Serving cfg h s)
    (hpc : s.pc t = .blocked (.event f st)) (hm : EventMoves cfg s t ans f st s') :
    Queues h (s.completions ((s.pc t).waiting s.events))
      (s'.completions ((s'.pc t).waiting s'.events)) := by
  have hpend : f.pending = false := by
    have := hv.coherent.untroubled t
    rw [hpc] at this
    exact this
  have hphase : ∀ {φ : Phase}, ((s.events f.i).op, φ) ∈ st.phases s.events f →
      ∃ g, s.accepted[(s.events f.i).op]? = some g ∧ φ.Needs s.dumbWriteHandler g ∧
        about Obs.op? (s.events f.i).op s.log = φ.script cfg g (s.events f.i).op := by
    intro φ hφ
    apply hv.phase (t := t)
    rw [hpc]
    exact hφ
  have hquiet := List.forall_mem_nil fun ob : Obs => ob.silent = true
  rw [hpc]
  cases hm with
  | isStop hlt _ | isEvent hlt _ =>
    refine serves_quiet rfl (List.append_nil _).symm hquiet ?_
    rw [State.pc_goto]
    show _ = eventsFrom s.events f.i f.result ++ s.ring
    rw [eventsFrom_of_lt hlt]
    rfl
  | batchEnd hle =>
    refine serves_quiet rfl (List.append_nil _).symm hquiet ?_
    rw [State.pc_goto]
    show _ = eventsFrom s.events f.i f.result ++ s.ring
    rw [eventsFrom_of_le hle]
    rfl
  | stopped =>
    obtain ⟨g, hg, hfd, -⟩ := hphase (φ := .stopping (s.events f.i).res) List.mem_cons_self
    refine serves_drop (s.events f.i :: eventsFrom s.events (f.i + 1) f.result)
      (List.mem_of_getElem? hg) (hv.handler ▸ hfd) rfl rfl ?_ ?_
    · intro ob hob
      rcases List.mem_cons.mp hob with rfl | hob
      · rfl
      · obtain ⟨j, -, rfl⟩ := List.mem_map.mp hob
        rfl
    · rw [State.pc_goto]
      rfl
  | synced _ _ =>
    refine serves_quiet rfl rfl (by rintro ob hob; rw [List.mem_singleton.mp hob]; rfl) ?_
    rw [State.pc_goto]
    rfl
  | errorCalled hres hnull =>
    obtain ⟨g, hg, hfd, hlog, hfit⟩ := hv.at_hand (t := t) (e := s.events f.i)
      (φ := .handling (s.events f.i).res) (by rw [hpc]; exact List.mem_cons_self)
      (by rw [State.view, hpc]; rfl)
    obtain ⟨c, hc⟩ := hv.callback hg hfd (Bool.eq_false_iff.mpr fun hn =>
      hnull (hfit.1.null_iff.mpr hn))
    rw [State.pc_goto]
    refine serves_notice hg hc hres (fun callback errno hob => ?_) rfl rfl ?_
    · rw [hlog] at hob
      simp [Phase.script] at hob
    · show s.log ++ _ = s.log ++ _
      rw [hfit.1.deref]
  | doneCalled obj =>
    obtain ⟨g, hg, ⟨hfd, hnull⟩, hlog⟩ := hphase (φ := .putBack (s.events f.i).res)
      List.mem_cons_self
    obtain ⟨g', hg', hdata⟩ := hv.coherent.matched.hand t (s.events f.i).op obj
      (by rw [State.view, hpc]; rfl)
    obtain rfl := Option.some.inj (hg'.symm.trans hg)
    obtain ⟨c, hc⟩ := hv.callback hg hfd hnull
    rw [State.pc_goto]
    refine serves_report hg hc (fun hres => ⟨g'.callback, -(s.events f.i).res, ?_⟩) rfl rfl rfl
      ⟨rfl, rfl, ?_⟩
    · rw [hlog]
      simp [Phase.script, Origin.notice, hres, hnull]
    · show some (_, s.refs.deref obj) = _
      rw [hdata.deref]
  | doneSkipped _ hp =>
    rw [hpend] at hp
    cases hp
  | doneReturned obj _ | released obj _ =>
    refine serves_quiet rfl rfl (by rintro ob hob; rw [List.mem_singleton.mp hob]; rfl) ?_
    rw [State.pc_goto]
    rfl
  | put obj =>
    refine serves_quiet rfl rfl (by rintro ob hob; rw [List.mem_singleton.mp hob]; rfl) ?_
    rw [State.pc_goto]
    rfl
  | warned =>
    obtain ⟨g, hg, ⟨hfd, hnull⟩, -⟩ := hphase (φ := .warning (s.events f.i).res)
      List.mem_cons_self
    have hc : g.callback = none := by
      cases g with
      | user a => exact Option.isNone_iff_eq_none.mp hnull
      | stop fd => rfl
    rw [State.pc_goto]
    exact serves_skip hg hc rfl rfl rfl (by rintro ob hob; rw [List.mem_singleton.mp hob]; rfl)
  | _ =>
    refine serves_quiet rfl (List.append_nil _).symm hquiet ?_
    rw [State.pc_goto]
    rfl

/-- Inside the loop of `poll(callbacks, ..)`. -/
theorem Serving.serves_poll {f : PollFrame} {st : PollStage} (hv : Serving cfg h s)
    (hpc : s.pc t = .poll (.event f st)) (hm : PollMoves cfg s t ans (.event f st) s') :
    Queues h (s.completions ((s.pc t).waiting s.events))
      (s'.completions ((s'.pc t).waiting s'.events)) := by
  have hready := hv.coherent.untroubled t
  have hquiet := List.forall_mem_nil fun ob : Obs => ob.silent = true
  -- the events of the batch from the one at hand on
  have hsplit : f.i < f.result → eventsFrom s.events f.i f.result
      = s.events f.i :: eventsFrom s.events (f.i + 1) f.result := eventsFrom_of_lt
  rw [hpc] at hready
  cases hm with
  | batchEnd _ hle =>
    refine serves_quiet rfl (List.append_nil _).symm hquiet ?_
    rw [State.pc_goto, hpc]
    show _ = eventsFrom s.events f.i f.result ++ s.ring
    rw [eventsFrom_of_le hle]
    rfl
  | noError _ hlt _ | errorSkipped _ hlt _ _ =>
    refine serves_quiet rfl (List.append_nil _).symm hquiet ?_
    rw [State.pc_goto, hpc]
    show _ = eventsFrom s.events f.i f.result ++ s.ring
    rw [hsplit hlt]
    rfl
  | errorCalled _ hlt hres hnull hstop =>
    obtain ⟨g, hg, -, hlog, hfit⟩ := hv.at_hand (t := t) (e := s.events f.i)
      (φ := .polled (s.events f.i).res) (by
        rw [hpc]
        show _ ∈ (eventsFrom s.events f.i f.result).map _
        rw [hsplit hlt]
        exact List.mem_cons_self)
      (by rw [State.view, hpc]; exact hsplit hlt)
    obtain ⟨c, hc⟩ := Option.ne_none_iff_exists'.mp (hfit.1.callback_iff.mp ⟨hnull, hstop⟩)
    rw [State.pc_goto, hpc]
    show Queues h (s.completions (eventsFrom s.events f.i f.result)) _
    rw [hsplit hlt]
    refine serves_notice hg hc hres (fun callback errno hob => ?_) rfl rfl ?_
    · rw [hlog] at hob
      simp [Phase.script] at hob
    · show s.log ++ _ = s.log ++ _
      rw [hfit.1.deref]
  | stored _ hnull hstop hlen =>
    obtain ⟨g, hg, -, hlog, hfit⟩ := hv.at_hand (t := t) (e := s.events f.i)
      (φ := .pollNoticed (s.events f.i).res) (by rw [hpc]; exact List.mem_cons_self)
      (by rw [State.view, hpc]; rfl)
    have hcb := hfit.1.callback_iff.mp ⟨hnull, hstop⟩
    obtain ⟨c, hc⟩ := Option.ne_none_iff_exists'.mp hcb
    rw [State.pc_goto, hpc]
    refine serves_report hg hc (fun hres => ⟨g.callback, -(s.events f.i).res, ?_⟩) rfl rfl rfl
      ⟨rfl, rfl, ?_⟩
    · rw [hlog]
      simp [Phase.script, Origin.pollNotice, hres, hcb]
    · show some (_, s.refs.deref (s.iocb (s.events f.i).obj).data) = _
      rw [hfit.1.deref]
  | storeThrew _ _ hlen =>
    have hle : f.result ≤ f.callbacks.length := hready.2.1
    have hlt : f.i < f.result := hready.2.2
    omega
  | notStored _ hno =>
    obtain ⟨g, hg, -, -, hfit⟩ := hv.at_hand (t := t) (e := s.events f.i)
      (φ := .pollNoticed (s.events f.i).res) (by rw [hpc]; exact List.mem_cons_self)
      (by rw [State.view, hpc]; rfl)
    have hc : g.callback = none := by
      by_contra hcb
      obtain ⟨hnull, hstop⟩ := hfit.1.callback_iff.mpr hcb
      exact hno.elim hnull hstop
    rw [State.pc_goto, hpc]
    exact serves_skip hg hc rfl rfl (List.append_nil _).symm hquiet
  | refDeleted _ =>
    refine serves_quiet rfl (List.append_nil _).symm hquiet ?_
    rw [State.pc_goto, hpc]
    rfl
  | put _ =>
    refine serves_quiet rfl rfl (by rintro ob hob; rw [List.mem_singleton.mp hob]; rfl) ?_
    rw [State.pc_goto, hpc]
    rfl

/-! ### The refinement -/

/-- The states of the context and of the queue that belong together. -/
def State.Shows (s : State Tid) (v : CompletionQueue Origin ℤ (Option ℕ)) : Prop :=
  ∃ batch, s.Waits batch ∧ v = s.completions batch

/-- A thread that neither is in the loop nor enters it. -/
theorem State.Waits.serves_aside (hw : s.Waits batch) (he : s'.events = s.events)
    (hpc : s'.pc = Function.update s.pc t p) (ht : (s.pc t).inBatch = false)
    (hp : p.inBatch = false) (hqueues : Queues h (s.completions batch) (s'.completions batch)) :
    ∃ v, Queues h (s.completions batch) v ∧ s'.Shows v :=
  ⟨_, hqueues, batch, hw.aside he hpc ht hp, rfl⟩

/-- The only thread in the loop, or one that enters it. -/
theorem State.Waits.serves_alone (hw : s.Waits batch) (hpc : s'.pc = Function.update s.pc t p)
    (hout : ∀ u, u ≠ t → (s.pc u).inBatch = false)
    (hqueues : Queues h (s.completions ((s.pc t).waiting s.events))
      (s'.completions (p.waiting s'.events))) :
    ∃ v, Queues h (s.completions batch) v ∧ s'.Shows v := by
  rw [hw.eq hout]
  exact ⟨_, hqueues, _, .goto hpc hout, rfl⟩

omit [DecidableEq Tid] in
/-- A read moves events from the completion ring into the batch. -/
theorem serves_read {k : ℕ} {obs : ℕ → Obs} (hk : k ≤ s.ring.length)
    (hsilent : ∀ o, (obs o).silent = true) (ht : (s.pc t).inBatch = false)
    (hacc : s'.accepted = s.accepted) (hlog : s'.log = (s.getEvents k obs).log)
    (hring : s'.ring = (s.getEvents k obs).ring)
    (hbatch : batch' = eventsFrom (s.getEvents k obs).events 0 k) :
    Queues h (s.completions ((s.pc t).waiting s.events)) (s'.completions batch') := by
  refine serves_quiet hacc hlog (fun ob hob => ?_) ?_
  · obtain ⟨e, -, rfl⟩ := List.mem_map.mp hob
    exact hsilent e.op
  · rw [hbatch, hring, eventsFrom_getEvents obs hk, Pc.waiting_of_not_inBatch _ ht]
    exact List.take_append_drop k s.ring

omit [DecidableEq Tid] in
/-- `io_queue_release` takes away what has not been read. -/
theorem serves_cancel {g : Origin} (hg : g ∈ s.accepted) (hfd : g.fd = h)
    (hacc : s'.accepted = s.accepted) (hlog : s'.log = s.log) (hring : s'.ring = []) :
    Queues h (s.completions batch) (s'.completions batch) := by
  have heq : s'.completions batch = { s.completions batch with
      queue := (s.completions batch).queue.take batch.length } := by
    simp [State.completions, hacc, hlog, hring]
  rw [heq]
  exact (CompletionQueue.Step.cancel batch.length (State.stopping_of hg hfd)).reaches

theorem Serving.serves_close {q : ClosePc} (hv : Serving cfg h s) (hw : s.Waits batch)
    (hal : ReadsAlone s (.step t ans)) (hpc : s.pc t = .close q)
    (hm : CloseMoves cfg s t ans q s') :
    ∃ v, Queues h (s.completions batch) v ∧ s'.Shows v := by
  have hquiet := List.forall_mem_nil fun ob : Obs => ob.silent = true
  have hin : ∀ u, (s.pc u).inBatch = true → ∀ u', u' ≠ u → (s.pc u').inBatch = false :=
    fun u hu u' => hv.sole.out hu
  have hstop : q.submitted = true → ∃ g ∈ s.accepted, g.fd = h := fun hq =>
    hv.handler ▸ hv.announced t q hpc hq
  cases hm with
  | accepted b _ _ =>
    exact hw.serves_aside rfl rfl (by rw [hpc]; rfl) rfl (serves_accept b _ rfl rfl rfl)
  | read k _ hk =>
    obtain ⟨g, hg, hfd⟩ := hstop rfl
    refine hw.serves_alone rfl (hal (by rw [hpc]; rfl)) ?_
    refine serves_drop (s.ring.take k) hg hfd rfl rfl (fun ob hob => ?_) ?_
    · obtain ⟨e, -, rfl⟩ := List.mem_map.mp hob
      rfl
    · rw [hpc]
      exact (List.take_append_drop k s.ring).symm
  | put i result _ | batchEnd i result _ =>
    refine hw.serves_alone rfl (hin t (by rw [hpc]; rfl)) ?_
    rw [hpc]
    exact serves_quiet rfl (List.append_nil _).symm hquiet rfl
  | queueReleased =>
    obtain ⟨g, hg, hfd⟩ := hstop rfl
    exact hw.serves_aside rfl rfl (by rw [hpc]; rfl) rfl (serves_cancel hg hfd rfl rfl rfl)
  | _ =>
    exact hw.serves_aside rfl rfl (by rw [hpc]; rfl) rfl
      (serves_quiet rfl (List.append_nil _).symm hquiet rfl)

/-- A thread that moves changes its program counter only. -/
theorem next_pc_update (hn : next cfg s (.step t ans) = some s') :
    s'.pc = Function.update s.pc t (s'.pc t) := by
  funext u
  by_cases hut : u = t
  · rw [hut, Function.update_self]
  · rw [Function.update_of_ne hut]
    exact next_pc_of_ne hn fun he => hut (Option.some.inj he).symm

/-- **Every step of the context is a run of the queue.** -/
theorem Serving.serves_step (hv : Serving cfg h s) (hw : s.Waits batch) (hl : InService s l)
    (hn : next cfg s l = some s') : ∃ v, Queues h (s.completions batch) v ∧ s'.Shows v := by
  have hquiet := List.forall_mem_nil fun ob : Obs => ob.silent = true
  have hin : ∀ u, (s.pc u).inBatch = true → ∀ u', u' ≠ u → (s.pc u').inBatch = false :=
    fun u hu u' => hv.sole.out hu
  cases next_moves hn with
  | call t o m _ hpc hm =>
    cases hm <;> exact hw.serves_aside rfl rfl (by rw [hpc]; rfl) rfl
      (serves_quiet rfl (List.append_nil _).symm hquiet rfl)
  | submit t ans q _ hpc hm =>
    cases hm with
    | accepted a b _ _ =>
      exact hw.serves_aside rfl rfl (by rw [hpc]; rfl) rfl (serves_accept b (.user a) rfl rfl rfl)
    | _ =>
      exact hw.serves_aside rfl rfl (by rw [hpc]; rfl) rfl
        (serves_quiet rfl (List.append_nil _).symm hquiet rfl)
  | blocked t ans q _ hpc hm =>
    cases hm with
    | readInterrupted f _ => exact ⟨_, .refl _, batch, hw, rfl⟩
    | read f k _ hk =>
      refine hw.serves_alone rfl (hl.2.2 (by rw [hpc]; rfl)) ?_
      exact serves_read hk (fun _ => rfl) (by rw [hpc]; rfl) rfl rfl rfl rfl
    | event f st _ hm =>
      exact hw.serves_alone (next_pc_update hn) (hin t (by rw [hpc]; rfl)) (hv.serves_event hpc hm)
    | _ =>
      exact hw.serves_aside rfl rfl (by rw [hpc]; rfl) rfl
        (serves_quiet rfl (List.append_nil _).symm hquiet rfl)
  | poll t ans q _ hpc hm =>
    cases q with
    | getEvents callbacks min max =>
      cases hm with
      | readFailed _ _ _ _ =>
        exact hw.serves_aside rfl rfl (by rw [hpc]; rfl) rfl
          (serves_quiet rfl (List.append_nil _).symm hquiet rfl)
      | read _ _ _ k _ hk =>
        refine hw.serves_alone rfl (hl.2.2 (by rw [hpc]; rfl)) ?_
        exact serves_read hk (fun _ => rfl) (by rw [hpc]; rfl) rfl rfl rfl rfl
    | event f st =>
      exact hw.serves_alone (next_pc_update hn) (hin t (by rw [hpc]; rfl)) (hv.serves_poll hpc hm)
    | release n callbacks pending =>
      cases hm with
      | released _ _ _ _ =>
        exact hw.serves_aside rfl rfl (by rw [hpc]; rfl) rfl
          (serves_quiet rfl rfl (by rintro ob hob; rw [List.mem_singleton.mp hob]; rfl) rfl)
      | _ =>
        exact hw.serves_aside rfl rfl (by rw [hpc]; rfl) rfl
          (serves_quiet rfl (List.append_nil _).symm hquiet rfl)
  | close t ans q _ hpc hm => exact hv.serves_close hw hl.2.2 hpc hm
  | complete k res r hr _ =>
    exact ⟨_, hv.serves_complete hr, batch, hw.of_same rfl rfl, rfl⟩
  | redeliver k ev _ => exact hl.2.1.elim
  | setForceSyscall value => exact ⟨_, .refl _, batch, hw.of_same rfl rfl, rfl⟩
  | closeDumbHandlers => exact hl.1.elim

/-- The simulation between the two levels. -/
theorem context_simulates (cfg : Config) (h : ℤ) :
    Simulation (next cfg) InService (CompletionQueue.next (ioProtocol h)) (fun _ _ => True)
      fun (s : State Tid) v => Serving cfg h s ∧ s.Shows v := by
  refine .of_invariant (fun s l s' hv hl hn => hv.step hl hn) ?_
  rintro s _ l s' hv ⟨batch, hw, rfl⟩ hl hn
  exact hv.serves_step hw hl hn

omit [DecidableEq Tid] in
theorem State.shows_initial (env : Process) :
    (.initial cfg env : State Tid).Shows .empty :=
  ⟨[], ⟨fun _ ht => absurd ht Bool.false_ne_true, fun _ => rfl⟩, rfl⟩

/-- **A context is a completion queue.**  What the context has shown in any state of
any run is what some run of the queue shows. -/
theorem context_is_completion_queue {env : Process} (hq : 0 < cfg.queueSize)
    (hr : Reaches (next cfg) InService (.initial cfg env) s) :
    ∃ batch, s.Waits batch ∧ Queues env.dumbWriteHandler .empty (s.completions batch) := by
  obtain ⟨v, hv, -, batch, hw, rfl⟩ := (context_simulates cfg env.dumbWriteHandler).reaches
    ⟨.initial hq env, State.shows_initial env⟩ hr
  exact ⟨batch, hw, hv⟩

/-- Two requests that are completed in the other order, the later one with an error,
and both reported. -/
def swapped : List (Label Bool) :=
  submits false ⟨.pwrite, 5, 0, 512, some 1⟩ ++ submits false ⟨.pread, 6, 0, 512, some 2⟩ ++
    [.complete 1 512, .complete 0 (-5), .call true .poll, .step true {},
      .step true { events := 2 }] ++ steps true 18

theorem context_is_completion_queue_swapped : ∃ s : State Bool,
    Reaches (next ⟨2, true, false⟩) InService (.sample ⟨2, true, false⟩) s ∧
      s.log.filterMap Obs.handed? = [(1, some 2), (0, some 1)] ∧
      ∃ batch, s.Waits batch ∧ Queues 3 .empty (s.completions batch) := by
  obtain ⟨s, hr, hlog⟩ := exists_of_exec (next ⟨2, true, false⟩) InService
    (.sample ⟨2, true, false⟩) swapped
    (fun s : State Bool => s.log.filterMap Obs.handed? = [(1, some 2), (0, some 1)]) (by decide)
  exact ⟨s, hr, hlog, context_is_completion_queue (by decide) hr⟩

/-! ### In the order of completion -/

/-- The callback of a completed request, as it is to be handed back. -/
def State.due (s : State Tid) (x : ℕ × ℤ) : Option (ℕ × Option ℕ) :=
  (s.accepted[x.1]?).bind fun g => g.callback.map fun c => (x.1, some c)

omit [DecidableEq Tid] in
theorem State.due_eq (s : State Tid) (batch : List IoEvent) (h : ℤ) :
    (s.completions batch).due (ioProtocol h) = s.due := by
  funext x
  show ((s.accepted[x.1]?).bind (ioProtocol h).client).map _ = s.due x
  rw [State.due, Option.map_bind]
  congr
  funext g
  show ((g.callback.map some).map _) = _
  rw [Option.map_map]
  rfl

/-- **Callbacks are handed back in the order of completion.**  The requests reported
so far and those that wait, in the batch at hand and behind it in the ring, are in
the order in which the kernel completed them, none twice; `onError` has been called
for a reported request just if its result is an error; and as long as nothing has
been accepted on the stop file, no callback is missing. -/
theorem handed_back_in_order {env : Process} (hq : 0 < cfg.queueSize)
    (hr : Reaches (next cfg) InService (.initial cfg env) s) :
    ∃ batch, s.Waits batch ∧
      ((s.log.filterMap Obs.handed?).map Prod.fst ++ (batch ++ s.ring).map (·.op)).Sublist
        ((s.log.filterMap Obs.completion?).map Prod.fst) ∧
      ((s.log.filterMap Obs.completion?).map Prod.fst).Nodup ∧
      (∀ o c res, (o, c) ∈ s.log.filterMap Obs.handed? → .completed o res ∈ s.log →
        (res < 0 ↔ (o, c, res) ∈ s.log.filterMap Obs.notice?)) ∧
      ((∀ g ∈ s.accepted, g.fd ≠ env.dumbWriteHandler) →
        s.log.filterMap Obs.handed? ++ ((batch ++ s.ring).map IoEvent.outcome).filterMap s.due
          = (s.log.filterMap Obs.completion?).filterMap s.due) := by
  obtain ⟨v, ⟨-, batch, hw, rfl⟩, hlaw⟩ := (context_simulates cfg env.dumbWriteHandler).invariant
    ⟨.initial hq env, State.shows_initial env⟩ (fun _ => CompletionQueue.Lawful.of_reaches) hr
  refine ⟨batch, hw, ?_, hlaw.once, fun o c res hdone hres => ⟨fun hneg => ?_, fun hsaid => ?_⟩,
    fun hno => ?_⟩
  · have horder := hlaw.order
    simp only [State.completions, List.map_map] at horder
    exact horder
  · exact hlaw.warned o c res hdone (State.mem_completions.mpr hres) (decide_eq_true hneg)
  · exact of_decide_eq_true (hlaw.said o c res hsaid).2.2
  · have hstop : (s.completions batch).stopping (ioProtocol env.dumbWriteHandler) = false := by
      rw [CompletionQueue.stopping, List.any_eq_false]
      exact fun g hg => by simpa [ioProtocol] using hno g hg
    have hall := hlaw.complete hstop
    rw [State.due_eq] at hall
    exact hall

theorem handed_back_in_order_swapped : ∃ s : State Bool,
    Reaches (next ⟨2, true, false⟩) InService (.sample ⟨2, true, false⟩) s ∧
      ∃ batch, s.Waits batch ∧
        s.log.filterMap Obs.handed? ++ ((batch ++ s.ring).map IoEvent.outcome).filterMap s.due
          = [(1, some 2), (0, some 1)] := by
  obtain ⟨s, hr, hacc, hlog⟩ := exists_of_exec (next ⟨2, true, false⟩) InService
    (.sample ⟨2, true, false⟩) swapped
    (fun s : State Bool => (∀ g ∈ s.accepted, g.fd ≠ 3) ∧
      (s.log.filterMap Obs.completion?).filterMap s.due = [(1, some 2), (0, some 1)]) (by decide)
  obtain ⟨batch, hw, -, -, -, hall⟩ := handed_back_in_order (by decide) hr
  exact ⟨s, hr, batch, hw, (hall hacc).trans hlog⟩

end ArtemisNative
