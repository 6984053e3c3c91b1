/-
ArtemisNative/References.lean

The global references of a context are conserved.

With the ledger, references and requests under way correspond whenever the poller is
between two events (`References`): a request that has not been notified is in transit,
since nothing gets lost at the kernel (`State.Unlost`), and one in transit has not been
notified.  A reference that has been made is live or has been deleted once, after its
submission has failed or its callback has been notified (`references_conserved`).
-/
import ArtemisNative.Ledger

namespace ArtemisNative

open Transition

variable {Tid : Type} [DecidableEq Tid] {cfg : Config} {s s' : State Tid} {t p : Tid} {q : Pc}
variable {ans : Answer} {l : Label Tid} {o r b first : ℕ} {env : Process}

/-! ### Nothing gets lost at the kernel -/

/-- The requests that the kernel has. -/
def State.atKernel (s : State Tid) : List ℕ := s.inflight.map (·.op) ++ s.ring.map (·.op)

/-- A request is at the kernel until a poller has read its event. -/
def State.Unlost (s : State Tid) : Prop :=
  ∀ o < s.accepted.length, o ∈ s.atKernel ∨ .reaped o ∈ s.log ∨ .polled o ∈ s.log

omit [DecidableEq Tid] in
theorem State.Unlost.keep (h : s.Unlost) (hacc : s'.accepted = s.accepted)
    (hk : ∀ o ∈ s.atKernel, o ∈ s'.atKernel ∨ .reaped o ∈ s'.log ∨ .polled o ∈ s'.log)
    (hlog : s.log <+: s'.log) : s'.Unlost := by
  intro o ho
  rw [hacc] at ho
  rcases h o ho with ho | ho | ho
  · exact hk o ho
  · exact .inr (.inl (hlog.subset ho))
  · exact .inr (.inr (hlog.subset ho))

theorem State.Unlost.step (h : s.Unlost) (hdel : Undeleted s) (hn : next cfg s l = some s') :
    s'.Unlost := by
  have hlog := (next_appends hn).2
  have hquiet : s'.accepted = s.accepted → s'.inflight = s.inflight → s'.ring = s.ring →
      s'.Unlost := by
    intro hacc hi hr
    refine h.keep hacc (fun o ho => .inl ?_) hlog
    rwa [State.atKernel, hi, hr]
  have hread : ∀ k, s'.accepted = s.accepted → s'.inflight = s.inflight →
      s'.ring = s.ring.drop k →
      (∀ e ∈ s.ring.take k, .reaped e.op ∈ s'.log ∨ .polled e.op ∈ s'.log) → s'.Unlost := by
    intro k hacc hi hr hobs
    refine h.keep hacc (fun o ho => ?_) hlog
    rcases List.mem_append.mp ho with ho | ho
    · exact .inl (List.mem_append_left _ (by rwa [hi]))
    · obtain ⟨e, he, rfl⟩ := List.mem_map.mp ho
      rw [← List.take_append_drop k s.ring] at he
      rcases List.mem_append.mp he with he | he
      · exact .inr (hobs e he)
      · exact .inl (List.mem_append_right _ (hr ▸ List.mem_map_of_mem he))
  cases next_moves hn with
  | call t o m _ hpc hm => cases hm <;> exact hquiet rfl rfl rfl
  | submit t ans q _ hpc hm =>
    cases hm with
    | accepted a b _ _ =>
      intro o ho
      have hk : ∀ o, o ∈ ((s.accept b (.user a)).goto t (.idle .returned)).atKernel ↔
          o ∈ s.atKernel ∨ o = s.accepted.length := by
        intro o
        simp only [State.atKernel, State.accept, State.goto, List.map_append, List.map_cons,
          List.map_nil, List.mem_append, List.mem_singleton]
        exact or_right_comm
      have ho : o < (s.accepted ++ [Origin.user a]).length := ho
      rw [List.length_append, List.length_singleton] at ho
      rcases Nat.lt_succ_iff_lt_or_eq.mp ho with hlt | rfl
      · exact (h o hlt).imp_left fun hold => (hk o).mpr (.inl hold)
      · exact .inl ((hk _).mpr (.inr rfl))
    | _ => exact hquiet rfl rfl rfl
  | blocked t ans q _ hpc hm =>
    cases hm with
    | read f k _ _ =>
      refine hread k rfl rfl rfl fun e he => .inl ?_
      exact List.mem_append_right _ (List.mem_map_of_mem he)
    | event f st _ hm => cases hm <;> exact hquiet rfl rfl rfl
    | _ => exact hquiet rfl rfl rfl
  | poll t ans q _ hpc hm =>
    cases hm with
    | read _ _ _ k _ _ =>
      refine hread k rfl rfl rfl fun e he => .inr ?_
      exact List.mem_append_right _ (List.mem_map_of_mem he)
    | _ => exact hquiet rfl rfl rfl
  | close t ans q _ hpc hm =>
    have hout := hdel.outside t
    rw [hpc] at hout
    cases hm with
    | timedOut _ _ | drained _ _ _ | unlimited _ | noSpace _ | gotIOCB _ _ _ =>
      exact hquiet rfl rfl rfl
    | _ => cases hout
  | complete k res x hx _ =>
    obtain ⟨hk, rfl⟩ := List.getElem?_eq_some_iff.mp hx
    refine h.keep rfl (fun o ho => .inl ?_) hlog
    have hperm := ((List.getElem_cons_eraseIdx_perm hk).map (·.op)).mem_iff (a := o)
    simp only [State.atKernel, State.complete, List.map_append, List.map_cons, List.map_nil,
      List.mem_append, List.mem_cons, List.not_mem_nil, or_false, ← hperm] at ho ⊢
    rw [← or_assoc, or_comm, ← or_assoc]
    exact ho
  | redeliver k ev _ =>
    refine h.keep rfl (fun o ho => .inl ?_) hlog
    refine (List.mem_append.mp ho).elim (List.mem_append_left _) fun ho => ?_
    exact List.mem_append_right _ (by simpa using .inl (List.mem_map.mp ho))
  | setForceSyscall value => exact hquiet rfl rfl rfl
  | closeDumbHandlers => exact hquiet rfl rfl rfl

/-! ### Who has been told -/

/-- The callback of request `o` has been notified: its `done` has returned, or it was
stored in the array. -/
def State.Notified (s : State Tid) (o : ℕ) : Prop :=
  .returned o ∈ s.log ∨ ∃ c i, .stored o c i ∈ s.log

/-- The index of the event whose callback the poller has notified and whose reference
it has not deleted. -/
def Pc.told : Pc → Option ℕ
  | .blocked (.event f (.release _)) | .blocked (.event f (.deleteRef _)) => some f.i
  | .poll (.event f .deleteRef) => some f.i
  | _ => none

/-- What a poller is at is true. -/
def State.Told (s : State Tid) : Prop :=
  ∀ u i, (s.pc u).told = some i → s.Notified (s.events i).op

omit [DecidableEq Tid] in
theorem State.Notified.mono (h : s.Notified o) (hlog : s.log <+: s'.log) : s'.Notified o :=
  h.imp (fun h => hlog.subset h) fun ⟨c, i, h⟩ => ⟨c, i, hlog.subset h⟩

theorem Pc.inBatch_of_told {i : ℕ} (h : q.told = some i) : q.inBatch = true := by
  rcases q with o | q | q | q | q
  · cases h
  · cases h
  · cases q with
    | event f st => rfl
    | _ => cases h
  · cases q with
    | event f st => rfl
    | _ => cases h
  · cases h

theorem State.Told.step (h : s.Told) (hquiet : ∀ u, (s.pc u).Untroubled) (hsm : Smooth l)
    (hal : ReadsAlone s l) (hn : next cfg s l = some s') : s'.Told := by
  have hlog := (next_appends hn).2
  intro u i hi
  by_cases hl : l.tid? = some u
  · -- the thread that moved
    have hgo : ∀ {q : Pc}, s'.pc = Function.update s.pc u q → q.told = some i := by
      intro q hpc
      rwa [hpc, Function.update_self] at hi
    have hstay : s'.events = s.events → (s.pc u).told = some i → s'.Notified (s'.events i).op := by
      intro he hold
      rw [he]
      exact (h u i hold).mono hlog
    have hun := hquiet u
    cases next_moves hn with
    | call t o m _ hpc hm =>
      obtain rfl := Option.some.inj hl
      cases hm <;> cases hgo rfl
    | submit t ans q _ hpc hm =>
      obtain rfl := Option.some.inj hl
      cases hm <;> cases hgo rfl
    | blocked t ans q _ hpc hm =>
      obtain rfl := Option.some.inj hl
      rw [hpc] at hun
      cases hm with
      | readInterrupted f _ => rw [hpc] at hi; cases hi
      | event f st _ hm =>
        cases hm with
        | doneSkipped obj hpend =>
          have hun : f.pending = false := hun
          rw [hpend] at hun
          cases hun
        | doneThrew obj hthrow =>
          have hsm : ans.throws = false := hsm
          rw [hthrow] at hsm
          cases hsm
        | doneReturned obj _ =>
          obtain rfl := Option.some.inj (hgo rfl)
          exact .inl (List.mem_append_right _ (List.mem_singleton_self _))
        | released obj _ | notReleased obj _ =>
          have hi := hgo rfl
          exact hstay rfl (by rw [hpc]; exact hi)
        | _ => cases hgo rfl
      | _ => cases hgo rfl
    | poll t ans q _ hpc hm =>
      obtain rfl := Option.some.inj hl
      rw [hpc] at hun
      cases hm with
      | stored f _ _ _ =>
        obtain rfl := Option.some.inj (hgo rfl)
        exact .inr ⟨_, _, List.mem_append_right _ (List.mem_singleton_self _)⟩
      | storeThrew f _ hlen =>
        obtain ⟨-, hres, hlt⟩ : f.pending = false ∧ f.result ≤ f.callbacks.length ∧
          f.i < f.result := hun
        omega
      | _ => cases hgo rfl
    | close t ans q _ hpc hm =>
      obtain rfl := Option.some.inj hl
      cases hm <;> cases hgo rfl
    | complete k res r hr _ => cases hl
    | redeliver k ev _ => cases hl
    | setForceSyscall value => cases hl
    | closeDumbHandlers => cases hl
  · rw [next_pc_of_ne hn hl] at hi
    rw [next_events hal hn (Pc.inBatch_of_told hi) hl]
    exact (h u i hi).mono hlog

/-! ### The invariants together -/

structure Conserving (cfg : Config) (first : ℕ) (p : Tid) (s : State Tid) : Prop where
  coherent : Coherent cfg s
  solo : SoloPoller p s
  undeleted : Undeleted s
  submitted : Submitted (·.fd ≠ s.dumbWriteHandler) s
  ledger : Ledger first s
  unlost : s.Unlost
  told : s.Told

omit [DecidableEq Tid] in
/-- No request is on the stop file, and each is the user's. -/
theorem Conserving.user (h : Conserving cfg first p s) {g : Origin} (hg : s.accepted[o]? = some g) :
    ∃ a, g = .user a ∧ a.fd ≠ s.dumbWriteHandler := by
  have hmem := List.mem_of_getElem? hg
  cases g with
  | user a => exact ⟨a, rfl, h.submitted.accepted a hmem⟩
  | stop fd => exact absurd hmem (h.undeleted.accepted fd)

omit [DecidableEq Tid] in
/-- No event is taken for the sentinel. -/
theorem Conserving.not_stop (h : Conserving cfg first p s) (t : Tid) (f : Frame) :
    s.pc t ≠ .blocked (.event f .stop) := by
  intro hpc
  have hφ : ((s.events f.i).op, Phase.stopping (s.events f.i).res) ∈ s.phases (some t) := by
    rw [State.phases, hpc]
    exact List.mem_cons_self
  obtain ⟨g, hg, hneeds, -⟩ := Tracks.logged h.coherent.tracked _ _ _ hφ
  obtain ⟨a, rfl, hfd⟩ := h.user hg
  exact hfd hneeds

theorem Conserving.step (h : Conserving cfg first p s) (hl : Conserves p s l)
    (hn : next cfg s l = some s') : Conserving cfg first p s' := by
  obtain ⟨⟨hone, honce, hbefore⟩, hsm, hsub⟩ := hl
  have hal := h.solo.readsAlone l
  have hhandler : s'.dumbWriteHandler = s.dumbWriteHandler :=
    next_handler hn (by rintro rfl; exact hsm)
  refine ⟨h.coherent.step hsm honce hal hn, ?_, h.undeleted.step hbefore hn, ?_, ?_, ?_, ?_⟩
  · exact h.solo.step ⟨hone, honce, h.undeleted.upToSentinel l⟩ hn
  · rw [hhandler]
    exact h.submitted.step hsub hn
  · refine h.ledger.step h.coherent.owned h.coherent.matched (fun g hg => ?_) h.not_stop
      h.undeleted honce hbefore hal hn
    obtain ⟨o, ho⟩ := List.mem_iff_getElem?.mp hg
    obtain ⟨a, rfl, hfd⟩ := h.user ho
    exact hfd
  · exact h.unlost.step h.undeleted hn
  · exact h.told.step h.coherent.untroubled hsm hal hn

omit [DecidableEq Tid] in
theorem Conserving.initial (hq : 0 < cfg.queueSize) (env : Process) :
    Conserving cfg env.refs.fresh p (.initial cfg env : State Tid) where
  coherent := .initial hq env
  solo := .initial env
  undeleted := .initial env
  submitted := .initial _ env
  ledger := .initial env
  unlost := fun o ho => absurd ho (Nat.not_lt_zero o)
  told := nofun

/-! ### Between two events -/

/-- The thread is not at work on an event of a batch. -/
def Pc.betweenEvents : Pc → Bool
  | .blocked (.event _ .test) | .poll (.event _ .onError) => true
  | .blocked (.event _ _) | .poll (.event _ _) => false
  | _ => true

theorem Pc.betweenEvents_of_not_polls (h : q.polls = false) : q.betweenEvents = true := by
  cases q with
  | blocked q | poll q => cases h
  | _ => rfl

/-- Between events a thread has no callback in its local, and the requests in its
batch are the ones it tracks. -/
theorem Pc.view_between (events : ℕ → IoEvent) (h : q.betweenEvents = true)
    (hdel : q.inDelete = false) :
    (q.view events).hand = none ∧
      (q.view events).batch.map (·.op) = (q.phases events).map Prod.fst ∧
      ∀ k φ, (k, φ) ∈ q.phases events → ∃ res, φ = .reaped res ∨ φ = .polled res := by
  have hkeys : ∀ (L : List IoEvent) (f : ℤ → Phase),
      L.map (·.op) = (L.map (·.at f)).map Prod.fst := fun L f => by
    rw [List.map_map]
    rfl
  rcases q with o | q | q | q | q
  · exact ⟨rfl, rfl, nofun⟩
  · cases q <;> exact ⟨rfl, rfl, nofun⟩
  · cases q with
    | event f st =>
      cases st with
      | test =>
        refine ⟨rfl, hkeys _ _, fun k φ hφ => ?_⟩
        obtain ⟨e, -, he⟩ := List.mem_map.mp hφ
        exact ⟨e.res, .inl (Prod.mk.inj he).2.symm⟩
      | _ => cases h
    | _ => exact ⟨rfl, rfl, nofun⟩
  · cases q with
    | event f st =>
      cases st with
      | onError =>
        refine ⟨rfl, hkeys _ _, fun k φ hφ => ?_⟩
        obtain ⟨e, -, he⟩ := List.mem_map.mp hφ
        exact ⟨e.res, .inr (Prod.mk.inj he).2.symm⟩
      | _ => cases h
    | _ => exact ⟨rfl, rfl, nofun⟩
  · cases q with
    | tryAcquire | getIOCB => exact ⟨rfl, rfl, nofun⟩
    | _ => cases hdel

/-- The iocbs of a batch are among those the thread holds, in this order. -/
theorem Pc.batch_sublist_holds (events : ℕ → IoEvent) (q : Pc) :
    ((q.view events).batch.map (·.obj)).Sublist (q.holds events) := by
  rcases q with o | q | q | q | q
  · exact List.nil_sublist _
  · cases q <;> exact List.nil_sublist _
  · cases q with
    | event f st =>
      cases st with
      | put obj => exact List.sublist_cons_self _ _
      | _ => exact List.Sublist.refl _
    | _ => exact List.nil_sublist _
  · cases q with
    | event f st =>
      cases st with
      | put => exact List.sublist_cons_self _ _
      | _ => exact List.Sublist.refl _
    | _ => exact List.nil_sublist _
  · cases q with
    | put i result => exact List.Sublist.refl _
    | _ => exact List.nil_sublist _

/-- What a submission in progress has prepared, or is about to undo. -/
theorem Pc.submits_of_view {events : ℕ → IoEvent} (hdel : q.inDelete = false)
    (h : (∃ a, (q.view events).prepared = some (a, b)) ∨ (q.view events).failed = some b) :
    (∃ a, q = .submit (.ioSubmit a b)) ∨ ∃ errno, q = .submit (.deleteRef b errno) := by
  rcases q with o | q | q | q | q
  · simp [Pc.view] at h
  · cases q with
    | ioSubmit a d =>
      simp only [Pc.view, Option.some.injEq, Prod.mk.injEq, exists_eq_left', reduceCtorEq,
        or_false] at h
      exact .inl ⟨a, by rw [h]⟩
    | deleteRef d errno =>
      simp only [Pc.view, Option.some.injEq, reduceCtorEq, exists_false, false_or] at h
      exact .inr ⟨errno, by rw [h]⟩
    | _ => simp [Pc.view] at h
  · cases q with
    | event f st => cases st <;> simp [Pc.view, Stage.view] at h
    | _ => simp [Pc.view] at h
  · cases q with
    | event f st => cases st <;> simp [Pc.view] at h
    | _ => simp [Pc.view] at h
  · cases q with
    | tryAcquire | getIOCB => simp [Pc.view] at h
    | _ => cases hdel

/-- The reference `r` belongs to a submission in progress. -/
def State.InProgress (s : State Tid) (r : ℕ) : Prop :=
  ∃ t b, ((∃ a, s.pc t = .submit (.ioSubmit a b)) ∨
    ∃ errno, s.pc t = .submit (.deleteRef b errno)) ∧
    (s.iocb b).data = .ref r

/-- An accepted request with a callback that has not been notified. -/
def State.Awaits (s : State Tid) (o : ℕ) : Prop :=
  ∃ a, s.accepted[o]? = some (.user a) ∧ a.callback ≠ none ∧ ¬s.Notified o

/-- The reference `r` is in the iocb of request `o`. -/
def State.Carries (s : State Tid) (o r : ℕ) : Prop :=
  ∃ q b, (b, o) ∈ s.requests q ∧ (s.iocb b).data = .ref r

/-- The live references made from `first` on, those of submissions in progress apart,
are one for each request that awaits its callback. -/
structure References (first : ℕ) (s : State Tid) : Prop where
  each_request : ∀ o, s.Awaits o → ∃! r, s.Carries o r
  each_reference : ∀ r, first ≤ r → s.refs.live r ≠ none → ¬s.InProgress r →
    ∃! o, s.Awaits o ∧ s.Carries o r
  carried : ∀ o r, s.Awaits o → s.Carries o r → first ≤ r ∧ ¬s.InProgress r ∧
    ∃ a, s.accepted[o]? = some (.user a) ∧ s.refs.live r = a.callback

omit [DecidableEq Tid] in
/-- The requests in transit are on iocbs of their own. -/
theorem Owned.request_unique {x y : Option Tid} {k : ℕ} (h : Owned cfg s)
    (hx : (b, o) ∈ s.requests x) (hy : (b, k) ∈ s.requests y) : o = k := by
  have hsub : ∀ z, ((s.requests z).map Prod.fst).Sublist (s.holders z) := by
    intro z
    cases z with
    | none =>
      have hobj : (s.requests none).map Prod.fst = s.holders none := by
        simp [State.requests, State.holders, List.map_map, Function.comp_def]
      rw [hobj]
    | some t =>
      have hobj : (s.requests (some t)).map Prod.fst = (s.view t).batch.map (·.obj) := by
        simp [State.requests, List.map_map, Function.comp_def]
      rw [hobj]
      exact Pc.batch_sublist_holds s.events (s.pc t)
  have hmem : ∀ z m, (b, m) ∈ s.requests z → b ∈ s.holders z := fun z m hz =>
    (hsub z).subset (List.mem_map_of_mem hz)
  obtain rfl := h.custody.place_unique (hmem x o hx) (hmem y k hy)
  have hnd := (h.custody.nodup x).sublist (hsub x)
  exact (Prod.mk.inj (List.inj_on_of_nodup_map hnd hx hy rfl)).2

omit [DecidableEq Tid] in
/-- What a request in transit says about the reference in its iocb. -/
theorem Conserving.carries {x : Option Tid} (h : Conserving cfg first p s)
    (hx : (b, o) ∈ s.requests x) :
    ∃ a, s.accepted[o]? = some (.user a) ∧ s.refs.Names (s.iocb b).data a.callback := by
  obtain ⟨g, hg, hfit⟩ := h.coherent.matched.transit x b o hx
  obtain ⟨a, rfl, -⟩ := h.user hg
  exact ⟨a, hg, hfit.1⟩

section Between

variable (h : Conserving cfg first p s) (hp : (s.pc p).betweenEvents = true)

include h hp

omit [DecidableEq Tid] in
theorem Conserving.between (t : Tid) : (s.pc t).betweenEvents = true := by
  cases hpoll : (s.pc t).polls with
  | true => rwa [h.solo.polls t hpoll]
  | false => exact Pc.betweenEvents_of_not_polls hpoll

omit [DecidableEq Tid] in
/-- Requests in transit are tracked. -/
theorem Conserving.requests_keys (x : Option Tid) :
    (s.requests x).map Prod.snd = (s.phases x).map Prod.fst := by
  cases x with
  | none =>
    simp [State.requests, State.phases, Request.submitted, IoEvent.at, List.map_map,
      Function.comp_def]
  | some t =>
    have hview := Pc.view_between s.events (h.between hp t) (h.undeleted.outside t)
    have hop : (s.requests (some t)).map Prod.snd = (s.view t).batch.map (·.op) := by
      simp [State.requests, List.map_map, Function.comp_def]
    rw [hop]
    exact hview.2.1

omit [DecidableEq Tid] in
/-- A request in transit has one iocb. -/
theorem Conserving.iocb_unique {x y : Option Tid} {d : ℕ} (hx : (b, o) ∈ s.requests x)
    (hy : (d, o) ∈ s.requests y) : b = d := by
  have htracks : Tracks Obs.op? (Finset.range s.accepted.length) s.phases s.log (s.Logged cfg)
    (s.Settled cfg) := h.coherent.tracked
  have hmem : ∀ z m, (m, o) ∈ s.requests z → o ∈ (s.phases z).map Prod.fst := by
    intro z m hz
    rw [← h.requests_keys hp z]
    exact List.mem_map_of_mem (f := Prod.snd) hz
  obtain rfl := htracks.custody.place_unique (hmem x b hx) (hmem y d hy)
  have hnd := htracks.custody.nodup x
  rw [← h.requests_keys hp x] at hnd
  exact (Prod.mk.inj (List.inj_on_of_nodup_map hnd hx hy rfl)).1

omit [DecidableEq Tid] in
/-- A request in transit has not been notified. -/
theorem Conserving.not_notified {x : Option Tid} (hx : (b, o) ∈ s.requests x) :
    ¬s.Notified o := by
  have hkey : o ∈ (s.phases x).map Prod.fst := by
    rw [← h.requests_keys hp x]
    exact List.mem_map_of_mem (f := Prod.snd) hx
  obtain ⟨⟨k, φ⟩, hφ, rfl⟩ := List.mem_map.mp hkey
  obtain ⟨g, -, -, hlog⟩ := Tracks.logged h.coherent.tracked x k φ hφ
  have hscript : ∀ ob, ob ∈ s.log → ob.op? = some k → ob ∈ φ.script cfg g k := by
    intro ob hob hop
    rw [← hlog]
    exact mem_about hob hop
  have hearly : φ = .submitted ∨ ∃ res, φ = .completed res ∨ φ = .reaped res ∨ φ = .polled res := by
    cases x with
    | none =>
      rcases State.kernel_phase hφ with rfl | ⟨res, rfl⟩
      · exact .inl rfl
      · exact .inr ⟨res, .inl rfl⟩
    | some t =>
      obtain ⟨res, hres⟩ :=
        (Pc.view_between s.events (h.between hp t) (h.undeleted.outside t)).2.2 k φ hφ
      exact .inr ⟨res, .inr hres⟩
  rintro (hm | ⟨c, i, hm⟩)
  · have hmem := hscript _ hm rfl
    rcases hearly with rfl | ⟨res, rfl | rfl | rfl⟩ <;> simp [Phase.script] at hmem
  · have hmem := hscript _ hm rfl
    rcases hearly with rfl | ⟨res, rfl | rfl | rfl⟩ <;> simp [Phase.script] at hmem

omit [DecidableEq Tid] in
/-- **A request whose callback has not been notified is in transit.** -/
theorem Conserving.in_transit (ho : s.Awaits o) : ∃ x b, (b, o) ∈ s.requests x := by
  obtain ⟨a, hacc, hcall, hnot⟩ := ho
  have hfd := h.submitted.accepted a (List.mem_of_getElem? hacc)
  have hplace : ∀ x, o ∈ (s.phases x).map Prod.fst → ∃ x b, (b, o) ∈ s.requests x := by
    intro x hx
    rw [← h.requests_keys hp x] at hx
    obtain ⟨⟨b, k⟩, hb, rfl⟩ := List.mem_map.mp hx
    exact ⟨x, b, hb⟩
  rcases h.coherent.cases hacc with ⟨x, φ, hφ, -⟩ | ⟨hnone, φ, hend, hneeds, hlog⟩
  · exact hplace x (List.mem_map_of_mem hφ)
  · have hsaid : ∀ ob ∈ φ.script cfg (.user a) o, ob ∈ s.log := by
      intro ob hob
      rw [← hlog] at hob
      exact (List.mem_filter.mp hob).1
    -- its event has been read, since the kernel does not have it
    have hread : .reaped o ∈ φ.script cfg (.user a) o ∨ .polled o ∈ φ.script cfg (.user a) o := by
      rw [← hlog]
      rcases h.unlost o (List.getElem?_eq_some_iff.mp hacc).1 with hk | hk | hk
      · refine absurd ?_ (hnone none)
        simpa [State.phases, State.atKernel, Request.submitted, IoEvent.at, List.map_map,
          Function.comp_def] using hk
      · exact .inl (mem_about hk rfl)
      · exact .inr (mem_about hk rfl)
    exfalso
    cases φ with
    | submitted | completed res | discarded res => simp [Phase.script] at hread
    | stopped res => exact hfd hneeds
    | dropped res =>
      obtain ⟨z, g, hz, hgfd, -⟩ := hend
      obtain ⟨a', rfl, hfd'⟩ := h.user hz
      exact hfd' hgfd
    | warned res => exact hcall (Option.isNone_iff_eq_none.mp hneeds.2)
    | reported res => exact hnot (.inl (hsaid _ (by simp [Phase.script])))
    | entered res i =>
      refine hnot (.inr ⟨a.callback, i, hsaid _ ?_⟩)
      simp [Phase.script, Origin.entry, Origin.callback, hcall]
    | _ => exact hend

omit [DecidableEq Tid] in
/-- **References and requests that await their callbacks correspond.** -/
theorem Conserving.references : References first s where
  each_request := by
    intro o ho
    obtain ⟨x, b, hb⟩ := h.in_transit hp ho
    obtain ⟨a, hacc, hcall, -⟩ := ho
    obtain ⟨a', hacc', hnames⟩ := h.carries hb
    obtain rfl := Origin.user.inj (Option.some.inj (hacc.symm.trans hacc'))
    cases hc : a.callback with
    | none => exact absurd hc hcall
    | some c =>
      rw [hc] at hnames
      obtain ⟨r, hr, -⟩ := hnames
      refine ⟨r, ⟨x, b, hb, hr⟩, ?_⟩
      rintro r' ⟨y, d, hd, hr'⟩
      obtain rfl := h.iocb_unique hp hb hd
      exact IocbData.ref.inj (hr'.symm.trans hr)
  each_reference := by
    intro r hfirst hlive hprog
    obtain ⟨x, hx⟩ := State.refers_iff.mp (h.ledger.kept r hfirst hlive)
    cases x with
    | hand t =>
      obtain ⟨o, ho⟩ := hx
      have hview := Pc.view_between s.events (h.between hp t) (h.undeleted.outside t)
      rw [State.view, hview.1] at ho
      cases ho
    | iocb b =>
      obtain ⟨⟨y, hy⟩, hd⟩ := hx
      rcases State.mem_loaded.mp hy with ⟨o, ho⟩ | ⟨t, rfl, ht⟩
      · obtain ⟨a, hacc, hnames⟩ := h.carries ho
        have hcall : a.callback ≠ none := by
          intro hc
          rw [hc, hd] at hnames
          cases hnames
        refine ⟨o, ⟨⟨a, hacc, hcall, h.not_notified hp ho⟩, y, b, ho, hd⟩, ?_⟩
        rintro k ⟨-, z, d, hz, hr⟩
        have hsame := h.coherent.matched.apart (.iocb b) (.iocb d) r
          ⟨⟨y, hy⟩, hd⟩ ⟨⟨z, State.mem_loaded.mpr (.inl ⟨k, hz⟩)⟩, hr⟩
        obtain rfl := Keeper.iocb.inj hsame
        exact h.coherent.owned.request_unique hz ho
      · exact absurd ⟨t, b, Pc.submits_of_view (h.undeleted.outside t) ht, hd⟩ hprog
  carried := by
    rintro o r ⟨a, hacc, -, -⟩ ⟨x, b, hb, hr⟩
    obtain ⟨a', hacc', hnames⟩ := h.carries hb
    obtain rfl := Origin.user.inj (Option.some.inj (hacc.symm.trans hacc'))
    have hload : b ∈ s.loaded x := State.mem_loaded.mpr (.inl ⟨o, hb⟩)
    refine ⟨?_, ?_, a, hacc, ?_⟩
    · obtain ⟨y, hy⟩ := State.refers_iff.mpr ⟨.iocb b, ⟨x, hload⟩, hr⟩
      exact h.ledger.own y r hy
    · rintro ⟨t, d, ht, hd⟩
      have hview : d ∈ s.loaded (some t) ∧ (s.view t).batch = [] := by
        rw [State.loaded, State.view]
        rcases ht with ⟨a', hpc⟩ | ⟨errno, hpc⟩ <;> rw [hpc]
        · exact ⟨List.mem_singleton_self d, rfl⟩
        · exact ⟨List.mem_singleton_self d, rfl⟩
      -- the iocb belongs to one place only
      have hsame := h.coherent.matched.apart (.iocb b) (.iocb d) r ⟨⟨x, hload⟩, hr⟩
        ⟨⟨some t, hview.1⟩, hd⟩
      obtain rfl := Keeper.iocb.inj hsame
      obtain rfl := h.coherent.owned.custody.place_unique (s.loaded_subset_holders x hload)
        (s.loaded_subset_holders (some t) hview.1)
      rw [State.requests, hview.2] at hb
      cases hb
    · cases hc : a.callback with
      | none =>
        rw [hc, hr] at hnames
        cases hnames
      | some c =>
        rw [hc, hr] at hnames
        obtain ⟨r', he, hl⟩ := hnames
        rw [IocbData.ref.inj he]
        exact hl

end Between

/-! ### Using and deleting references -/

/-- What the next step of thread `t` passes to `DeleteGlobalRef`. -/
def State.deletes (s : State Tid) (t : Tid) : Option IocbData :=
  match s.pc t with
  | .submit (.deleteRef b _) => some (s.iocb b).data
  | .blocked (.event _ (.deleteRef obj)) => some obj
  | .poll (.event f .deleteRef) => some (s.iocb (s.events f.i).obj).data
  | _ => none

/-- The reference that thread `t` uses at its place: it deletes it, stores the object
in the array, or calls a method of it or with it. -/
def State.uses (s : State Tid) (t : Tid) : Option IocbData :=
  match s.pc t with
  | .blocked (.event f .onError) => some (s.iocb (s.events f.i).obj).data
  | .blocked (.event _ (.done obj)) | .blocked (.event _ (.inDone obj)) => some obj
  | .poll (.event f .onError) =>
    if f.i < f.result then some (s.iocb (s.events f.i).obj).data else none
  | .poll (.event f .store) => some (s.iocb (s.events f.i).obj).data
  | _ => s.deletes t

/-- A label under which a thread deletes the reference `r`. -/
def State.deletesRef (r : ℕ) (s : State Tid) : Label Tid → Bool
  | .step t _ => s.deletes t = some (.ref r)
  | _ => false

/-- A thread deletes a reference, or at most one is made. -/
theorem next_refs (hn : next cfg s l = some s') :
    (∃ t ans data, l = .step t ans ∧ s.deletes t = some data ∧ s'.refs = s.refs.delete data) ∨
    (∀ r, s.deletesRef r l = false) ∧
      (s'.refs = s.refs ∨ ∃ callback, s'.refs = (s.refs.new callback).2) := by
  have hquiet : ∀ t ans, s.deletes t = none → ∀ r, s.deletesRef r (.step t ans) = false := by
    intro t ans hnone r
    simp [State.deletesRef, hnone]
  cases next_moves hn with
  | call t o m _ hpc hm => cases hm <;> exact .inr ⟨fun _ => rfl, .inl rfl⟩
  | submit t ans q _ hpc hm =>
    cases hm with
    | refDeleted b errno => exact .inl ⟨t, ans, _, rfl, by simp [State.deletes, hpc], rfl⟩
    | prepared a b =>
      exact .inr ⟨hquiet t ans (by simp [State.deletes, hpc]), .inr ⟨a.callback, rfl⟩⟩
    | _ => exact .inr ⟨hquiet t ans (by simp [State.deletes, hpc]), .inl rfl⟩
  | blocked t ans q _ hpc hm =>
    cases hm with
    | event f st _ hm =>
      cases hm with
      | refDeleted obj => exact .inl ⟨t, ans, _, rfl, by simp [State.deletes, hpc], rfl⟩
      | _ => exact .inr ⟨hquiet t ans (by simp [State.deletes, hpc]), .inl rfl⟩
    | _ => exact .inr ⟨hquiet t ans (by simp [State.deletes, hpc]), .inl rfl⟩
  | poll t ans q _ hpc hm =>
    cases hm with
    | refDeleted f => exact .inl ⟨t, ans, _, rfl, by simp [State.deletes, hpc], rfl⟩
    | _ => exact .inr ⟨hquiet t ans (by simp [State.deletes, hpc]), .inl rfl⟩
  | close t ans q _ hpc hm =>
    cases hm <;> exact .inr ⟨hquiet t ans (by simp [State.deletes, hpc]), .inl rfl⟩
  | complete k res x hx _ => exact .inr ⟨fun _ => rfl, .inl rfl⟩
  | redeliver k ev _ => exact .inr ⟨fun _ => rfl, .inl rfl⟩
  | setForceSyscall value => exact .inr ⟨fun _ => rfl, .inl rfl⟩
  | closeDumbHandlers => exact .inr ⟨fun _ => rfl, .inl rfl⟩

omit [DecidableEq Tid] in
/-- What is used is kept. -/
theorem State.refers_of_uses (hu : s.uses t = some (.ref r)) : s.Refers (some t) r := by
  rw [State.Refers, State.view]
  rcases hpc : s.pc t with o | q | q | q | q <;> simp only [State.uses, State.deletes, hpc] at hu
  · cases hu
  · cases q with
    | deleteRef b errno => exact .inl ⟨b, List.mem_singleton_self b, Option.some.inj hu⟩
    | _ => cases hu
  · cases q with
    | event f st =>
      cases st with
      | onError => exact View.refers_batch.mpr (.inl ⟨_, List.mem_cons_self, Option.some.inj hu⟩)
      | done obj | inDone obj | deleteRef obj =>
        obtain rfl := Option.some.inj hu
        exact .inr ⟨(s.events f.i).op, rfl⟩
      | _ => cases hu
    | _ => cases hu
  · cases q with
    | event f st =>
      cases st with
      | onError =>
        simp only at hu
        split at hu
        · rename_i hlt
          refine View.refers_batch.mpr (.inl ⟨s.events f.i, ?_, Option.some.inj hu⟩)
          rw [eventsFrom_of_lt hlt]
          exact List.mem_cons_self
        · cases hu
      | store | deleteRef =>
        exact View.refers_batch.mpr (.inl ⟨_, List.mem_cons_self, Option.some.inj hu⟩)
      | _ => cases hu
    | _ => cases hu
  · cases hu

omit [DecidableEq Tid] in
theorem State.uses_of_deletes {data : IocbData} (hd : s.deletes t = some data) :
    s.uses t = some data := by
  rcases hpc : s.pc t with o | q | q | q | q <;>
    simp only [State.uses, State.deletes, hpc] at hd ⊢
  · cases hd
  · exact hd
  · cases q with
    | event f st =>
      cases st with
      | deleteRef obj => exact hd
      | _ => cases hd
    | _ => cases hd
  · cases q with
    | event f st =>
      cases st with
      | deleteRef => exact hd
      | _ => cases hd
    | _ => cases hd
  · cases hd

omit [DecidableEq Tid] in
/-- **No reference is used that has been deleted.** -/
theorem Matched.uses_live (h : Matched s) (hu : s.uses t = some (.ref r)) :
    s.refs.live r ≠ none := by
  obtain ⟨x, hx⟩ := State.refers_iff.mp ⟨some t, State.refers_of_uses hu⟩
  exact h.live hx

omit [DecidableEq Tid] in
/-- **A reference is deleted after its submission has failed, or after its callback has
been notified.** -/
theorem Conserving.deletes_told (h : Conserving cfg first p s) (hd : s.deletes t = some (.ref r)) :
    (∃ b errno, s.pc t = .submit (.deleteRef b errno)) ∨
    ∃ o a, s.accepted[o]? = some (.user a) ∧ s.refs.live r = a.callback ∧ s.Notified o := by
  have hdone : ∀ o g, s.accepted[o]? = some g → g.Data s.refs (.ref r) → s.Notified o →
      ∃ o a, s.accepted[o]? = some (.user a) ∧ s.refs.live r = a.callback ∧ s.Notified o := by
    intro o g hg hdata hnot
    obtain ⟨a, rfl, -⟩ := h.user hg
    exact ⟨o, a, hg, hdata.deref, hnot⟩
  rcases hpc : s.pc t with o | q | q | q | q <;> simp only [State.deletes, hpc] at hd
  · cases hd
  · cases q with
    | deleteRef b errno => exact .inl ⟨b, errno, rfl⟩
    | _ => cases hd
  · cases q with
    | event f st =>
      cases st with
      | deleteRef obj =>
        obtain rfl := Option.some.inj hd
        obtain ⟨g, hg, hdata⟩ := h.coherent.matched.hand t (s.events f.i).op (.ref r)
          (by rw [State.view, hpc]; rfl)
        exact .inr (hdone _ g hg hdata (h.told t f.i (by rw [hpc]; rfl)))
      | _ => cases hd
    | _ => cases hd
  · cases q with
    | event f st =>
      cases st with
      | deleteRef =>
        have hb : (s.view t).batch = s.events f.i :: eventsFrom s.events (f.i + 1) f.result := by
          rw [State.view, hpc]
          rfl
        obtain ⟨g, hg, hfit⟩ := h.coherent.matched.at_hand hb
        have hdata := hfit.1
        rw [Option.some.inj hd] at hdata
        exact .inr (hdone _ g hg hdata (h.told t f.i (by rw [hpc]; rfl)))
      | _ => cases hd
    | _ => cases hd
  · cases hd

/-- The reference `r` has been made here and deleted. -/
def GlobalRefs.Spent (g : GlobalRefs) (first r : ℕ) : Prop :=
  first ≤ r ∧ r < g.fresh ∧ g.live r = none

theorem GlobalRefs.spent_new {g : GlobalRefs} {callback : Option ℕ} :
    (g.new callback).2.Spent first r ↔ g.Spent first r := by
  cases callback with
  | none => exact Iff.rfl
  | some c =>
    simp only [GlobalRefs.Spent, GlobalRefs.new]
    by_cases hr : r = g.fresh
    · simp [hr]
    · rw [Function.update_of_ne hr]
      have hlt : r < g.fresh + 1 ↔ r < g.fresh := by omega
      rw [hlt]

instance (g : GlobalRefs) (first r : ℕ) : Decidable (g.Spent first r) := by
  unfold GlobalRefs.Spent
  infer_instance

/-- A step that deletes the reference `r` finds it live, and no other step makes it
live or deletes it. -/
theorem Conserving.spent_step (h : Conserving cfg first p s) (hn : next cfg s l = some s') (r : ℕ) :
    (if s'.refs.Spent first r then 1 else 0) =
      (if s.refs.Spent first r then 1 else 0) + if s.deletesRef r l then 1 else 0 := by
  rcases next_refs hn with ⟨t, ans, data, rfl, hd, hrefs⟩ | ⟨hquiet, hrefs | ⟨c, hrefs⟩⟩
  · by_cases hr : data = .ref r
    · subst hr
      have hlive := h.coherent.matched.uses_live (State.uses_of_deletes hd)
      have hlt : r < s.refs.fresh := by
        by_contra hge
        exact hlive (s.refs.live_fresh r (by omega))
      have hfirst := h.ledger.own (some t) r (State.refers_of_uses (State.uses_of_deletes hd))
      have hspent : s'.refs.Spent first r := by
        rw [hrefs]
        exact ⟨hfirst, by rwa [GlobalRefs.delete_fresh], GlobalRefs.delete_self⟩
      rw [if_pos hspent, if_neg fun hs => hlive hs.2.2, if_pos (by simp [State.deletesRef, hd])]
    · have hsame : s'.refs.Spent first r ↔ s.refs.Spent first r := by
        rw [hrefs, GlobalRefs.Spent, GlobalRefs.delete_fresh, GlobalRefs.delete_of_ne hr]
        exact Iff.rfl
      have hnot : s.deletesRef r (.step t ans) = false := by
        simp [State.deletesRef, hd, hr]
      simp [hsame, hnot]
  · simp [hrefs, hquiet r]
  · simp [hrefs, hquiet r, GlobalRefs.spent_new]

/-- **Callback references are conserved.**  Before `deleteContext` begins, and while the
poller is between two events, the live references are one for each accepted request
whose callback has not been notified, and those of submissions in progress.  A reference
that has been made is live or has been deleted once; it is deleted after its submission
has failed or its callback has been notified; and none is used that has been deleted. -/
theorem references_conserved {ls : List (Label Tid)} (hq : 0 < cfg.queueSize)
    (hr : Run (next cfg) (Conserves p) (.initial cfg env) ls s) :
    ((s.pc p).betweenEvents = true → References env.refs.fresh s) ∧
    (∀ r, env.refs.fresh ≤ r →
      tally (next cfg) (State.deletesRef r) (.initial cfg env) ls +
        (if s.refs.live r = none then 0 else 1) = if r < s.refs.fresh then 1 else 0) ∧
    (∀ t r, s.deletes t = some (.ref r) →
      (∃ b errno, s.pc t = .submit (.deleteRef b errno)) ∨
      ∃ o a, s.accepted[o]? = some (.user a) ∧ s.refs.live r = a.callback ∧ s.Notified o) ∧
    ∀ t r, s.uses t = some (.ref r) → s.refs.live r ≠ none := by
  have h : Conserving cfg env.refs.fresh p s :=
    hr.invariant (.initial hq env) fun _ _ _ h hl hn => h.step hl hn
  refine ⟨h.references, fun r hfirst => ?_, fun _ _ => h.deletes_told, fun _ _ =>
    h.coherent.matched.uses_live⟩
  have htally := hr.tally_eq (I := Conserving cfg env.refs.fresh p) (State.deletesRef r)
    (fun s => if s.refs.Spent env.refs.fresh r then 1 else 0) (.initial hq env)
    fun s l s' h hl hn => ⟨h.step hl hn, h.spent_step hn r⟩
  have hstart : ¬(State.initial cfg env : State Tid).refs.Spent env.refs.fresh r := by
    rintro ⟨-, hlt, -⟩
    have hlt : r < env.refs.fresh := hlt
    omega
  simp only [if_neg hstart, Nat.zero_add] at htally
  rw [← htally]
  by_cases hlt : r < s.refs.fresh
  · by_cases hlive : s.refs.live r = none
    · simp [GlobalRefs.Spent, hfirst, hlt, hlive]
    · simp [GlobalRefs.Spent, hfirst, hlt, hlive]
  · have hlive := s.refs.live_fresh r (by omega)
    simp [GlobalRefs.Spent, hlt, hlive]

/-- One write is polled, one is rejected, and one is under way. -/
def threeWrites : List (Label Bool) :=
  submits false ⟨.pwrite, 5, 0, 512, some 1⟩ ++
  [.call false (.submit ⟨.pwrite, 5, 512, 512, some 2⟩), .step false {}, .step false {},
    .step false {}, .step false { ioSubmit := -9 }, .step false {}, .step false {},
    .complete 0 512, .call true (.pollInto [none, none] 1 2), .step true { events := 1 }] ++
  steps true 5 ++ submits false ⟨.pwrite, 5, 512, 512, some 3⟩

theorem references_conserved_writes : ∃ s : State Bool,
    Run (next ⟨4, true, false⟩) (Conserves true) (.sample ⟨4, true, false⟩) threeWrites s ∧
    s.refs.fresh = 3 ∧ s.refs.live 2 = some 3 ∧ References 0 s ∧
    ∀ r < 2, tally (next ⟨4, true, false⟩) (State.deletesRef r) (.sample ⟨4, true, false⟩)
      threeWrites = 1 := by
  obtain ⟨s, hr, hfresh, hzero, hone, htwo, hpc⟩ := exists_run_of_exec (next ⟨4, true, false⟩)
    (Conserves true) (.sample ⟨4, true, false⟩) threeWrites
    (fun s : State Bool => s.refs.fresh = 3 ∧ s.refs.live 0 = none ∧ s.refs.live 1 = none ∧
      s.refs.live 2 = some 3 ∧ (s.pc true).betweenEvents = true) (by decide)
  obtain ⟨href, htally, -, -⟩ := references_conserved (by decide) hr
  have hgone := htally 0 le_rfl
  have hfailed := htally 1 (Nat.zero_le _)
  rw [hzero, hfresh] at hgone
  rw [hone, hfresh] at hfailed
  refine ⟨s, hr, hfresh, htwo, href hpc, fun r hlt => ?_⟩
  obtain rfl | rfl : r = 0 ∨ r = 1 := by omega
  · exact hgone
  · exact hfailed

end ArtemisNative
