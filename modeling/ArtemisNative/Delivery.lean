/-
ArtemisNative/Delivery.lean

What becomes of a request whose event `blockedPoll` has read.

Threads submit requests with callbacks, others call `poll()`; `pollLock` lets one
of these into `blockedPoll` at a time.  A request whose event was read before the
sentinel is in the batch of that thread or has been reported, and its part of the
log is the report so far (`Delivery.reaped`).  The steps of the thread bring the
report to its end, whatever the other threads do in between, to the pool and to
the iocb of the request included: `Pc.work` counts them down.
-/
import ArtemisNative.Lifecycle

namespace ArtemisNative

open Transition

variable {Tid : Type} [DecidableEq Tid] {cfg : Config} {s s' : State Tid} {t p : Tid}
variable {ans : Answer} {l : Label Tid} {o : ℕ} {a : Submission}

/-! ### What is submitted -/

/-- The arguments of the submission a thread is making. -/
def Pc.submission : Pc → Option Submission
  | .submit (.acquire a) | .submit (.getIOCB a) | .submit (.prep a _)
  | .submit (.ioSubmit a _) => some a
  | _ => none

/-- Threads call `submitWrite` and `submitRead` with arguments that satisfy `P`. -/
def Label.Submits (P : Submission → Prop) : Label Tid → Prop
  | .call _ (.submit a) => P a
  | _ => True

omit [DecidableEq Tid] in
instance (P : Submission → Prop) [DecidablePred P] :
    DecidablePred (Label.Submits P : Label Tid → Prop)
  | .call _ (.submit a) => inferInstanceAs (Decidable (P a))
  | .call _ .poll | .call _ (.pollInto _ _ _) | .call _ .close | .step _ _ | .complete _ _
  | .redeliver _ | .setForceSyscall _ | .closeDumbHandlers => isTrue trivial

/-- All submissions satisfied `P`. -/
structure Submitted (P : Submission → Prop) (s : State Tid) : Prop where
  accepted : ∀ a, .user a ∈ s.accepted → P a
  underway : ∀ t a, (s.pc t).submission = some a → P a

theorem Submitted.goto {P : Submission → Prop} {q : Pc} (h : Submitted P s)
    (hacc : ∀ a, .user a ∈ s'.accepted → .user a ∈ s.accepted ∨ (s.pc t).submission = some a)
    (hpc : s'.pc = Function.update s.pc t q)
    (hq : ∀ a, q.submission = some a → (s.pc t).submission = some a ∨ P a) :
    Submitted P s' where
  accepted := fun a ha => (hacc a ha).elim (h.accepted a) (h.underway t a)
  underway := by
    intro u a hu
    rw [hpc] at hu
    by_cases hut : u = t
    · subst hut
      rw [Function.update_self] at hu
      exact (hq a hu).elim (h.underway u a) id
    · rw [Function.update_of_ne hut] at hu
      exact h.underway u a hu

theorem Submitted.step {P : Submission → Prop} (h : Submitted P s) (hl : l.Submits P)
    (hn : next cfg s l = some s') : Submitted P s' := by
  have hsame : ∀ {t : Tid} (a : Submission), Origin.user a ∈ s.accepted →
      Origin.user a ∈ s.accepted ∨ (s.pc t).submission = some a := fun _ => .inl
  cases next_moves hn with
  | call t o m _ hpc hm =>
    cases hm with
    | submit a _ =>
      refine h.goto hsame rfl fun a' ha' => .inr ?_
      obtain rfl := Option.some.inj ha'
      exact hl
    | _ => exact h.goto hsame rfl nofun
  | submit t ans q _ hpc hm =>
    cases hm with
    | acquired a _ _ _ | unlimited a _ | gotIOCB a _ _ _ | prepared a _ =>
      exact h.goto hsame rfl fun _ ha => .inl (by rw [hpc]; exact ha)
    | accepted a b _ _ =>
      refine h.goto (fun a' ha' => ?_) rfl nofun
      rw [hpc]
      rcases List.mem_append.mp ha' with ha' | ha'
      · exact .inl ha'
      · rw [Origin.user.inj (List.mem_singleton.mp ha')]
        exact .inr rfl
    | _ => exact h.goto hsame rfl nofun
  | blocked t ans q _ hpc hm =>
    cases hm with
    | readInterrupted f _ => exact h
    | event f st _ hm => cases hm <;> exact h.goto hsame rfl nofun
    | _ => exact h.goto hsame rfl nofun
  | poll t ans q _ hpc hm => cases hm <;> exact h.goto hsame rfl nofun
  | close t ans q _ hpc hm =>
    cases hm with
    | accepted b _ _ =>
      refine h.goto (fun a' ha' => .inl ?_) rfl nofun
      rcases List.mem_append.mp ha' with ha' | ha'
      · exact ha'
      · cases List.mem_singleton.mp ha'
    | _ => exact h.goto hsame rfl nofun
  | complete k res r hr _ => exact ⟨h.accepted, h.underway⟩
  | redeliver k ev _ => exact ⟨h.accepted, h.underway⟩
  | setForceSyscall value => exact ⟨h.accepted, h.underway⟩
  | closeDumbHandlers => exact ⟨h.accepted, h.underway⟩

omit [DecidableEq Tid] in
theorem Submitted.initial (P : Submission → Prop) (env : Process) :
    Submitted P (.initial cfg env : State Tid) where
  accepted := by simp [State.initial]
  underway := by simp [State.initial, Pc.submission]

/-! ### The discipline -/

/-- A submission with a callback, on another descriptor than the stop file. -/
def Proper (h : ℤ) (a : Submission) : Prop := a.callback ≠ none ∧ a.fd ≠ h

instance (h : ℤ) : DecidablePred (Proper h) := fun _ => inferInstanceAs (Decidable (_ ∧ _))

/-- Threads submit with callbacks that return normally, on descriptors other than
the stop file, and threads call `poll()`. -/
def Delivers (s : State Tid) (l : Label Tid) : Prop :=
  BlockedRun s l ∧ Smooth l ∧ l.Submits (Proper s.dumbWriteHandler)

instance (s : State Tid) : DecidablePred (Delivers s) := fun _ =>
  inferInstanceAs (Decidable (_ ∧ _ ∧ _))

structure Delivery (cfg : Config) (s : State Tid) : Prop where
  coherent : Coherent cfg s
  locked : LockedPoller s
  proper : Submitted (Proper s.dumbWriteHandler) s

theorem Delivery.step (h : Delivery cfg s) (hl : Delivers s l)
    (hn : next cfg s l = some s') : Delivery cfg s' where
  coherent := h.coherent.step hl.2.1 hl.1.2.1 (h.locked.readsAlone l) hn
  locked := h.locked.step hl.1 hn
  proper := by
    have hne : l ≠ .closeDumbHandlers := by
      rintro rfl
      exact hl.2.1
    rw [next_handler hn hne]
    exact h.proper.step hl.2.2 hn

omit [DecidableEq Tid] in
theorem Delivery.initial (hq : 0 < cfg.queueSize) (env : Process) :
    Delivery cfg (.initial cfg env : State Tid) where
  coherent := .initial hq env
  locked := .initial env
  proper := .initial _ env

/-! ### The report -/

/-- What the log says about a request once it has been reported. -/
def report (cfg : Config) (a : Submission) (o : ℕ) (res : ℤ) : List Obs :=
  [.completed o res, .reaped o] ++
    (if res < 0 then [.onError o a.callback (-res)] else []) ++
    [.putBack o, .done o a.callback, .returned o] ++
    if cfg.useSemaphore then [.released o] else []

theorem script_reported {res : ℤ} (ha : a.callback ≠ none) :
    (Phase.reported res).script cfg (.user a) o = report cfg a o res := by
  obtain ⟨c, hc⟩ := Option.ne_none_iff_exists'.mp ha
  simp [Phase.script, report, Origin.notice, Origin.isNull, Origin.callback, hc]

/-- The phases of the events of a thread in `blockedPoll`. -/
def Phase.inBlocked : Phase → Bool
  | .reaped _ | .stopping _ | .handling _ | .noticed _ | .warning _ | .taken _ | .putBack _
  | .called _ | .returned _ => true
  | _ => false

theorem Stage.inBlocked {events : ℕ → IoEvent} {f : Frame} {st : Stage} {k : ℕ} {φ : Phase}
    (hk : (k, φ) ∈ st.phases events f) : φ.inBlocked = true := by
  have hrest : ∀ i, (k, φ) ∈ (eventsFrom events i f.result).map (·.at .reaped) →
      φ.inBlocked = true := by
    intro i hk
    obtain ⟨e, -, he⟩ := List.mem_map.mp hk
    obtain ⟨-, rfl⟩ := Prod.mk.inj he
    rfl
  cases st with
  | test => exact hrest _ hk
  | deleteRef obj => exact hrest _ hk
  | _ =>
    rcases List.mem_cons.mp hk with he | hk
    · obtain ⟨-, rfl⟩ := Prod.mk.inj he
      rfl
    · exact hrest _ hk

omit [DecidableEq Tid] in
theorem State.not_ended {φ : Phase} (hφ : φ.inBlocked = true) : ¬s.Ended o φ := by
  cases φ with
  | reaped res | stopping res | handling res | noticed res | warning res | taken res
  | putBack res | called res | returned res => exact id
  | _ => cases hφ

omit [DecidableEq Tid] in
/-- Nobody is in the other `poll`, so every event at hand is one of `blockedPoll`. -/
theorem State.inBlocked {k : ℕ} {φ : Phase} (hblocked : ∀ q, s.pc t ≠ .poll q)
    (hk : (k, φ) ∈ s.phases (some t)) : φ.inBlocked = true := by
  rw [State.phases] at hk
  rcases hpc : s.pc t with q | q | q | q | q <;> rw [hpc] at hk
  · cases hk
  · cases hk
  · cases q with
    | event f st => exact Stage.inBlocked hk
    | _ => cases hk
  · exact absurd hpc (hblocked q)
  · cases hk

/-- The event of `o` is in the batch of thread `t`. -/
def State.AtHand (s : State Tid) (t : Tid) (o : ℕ) : Prop :=
  o ∈ ((s.pc t).phases s.events).map Prod.fst

theorem Phase.script_isPrefix {g : Origin} {φ : Phase} (hφ : φ.inBlocked = true) :
    ∃ res, φ.script cfg g o <+: (Phase.reported res).script cfg g o := by
  cases φ with
  | reaped res | stopping res | handling res | warning res | noticed res | taken res
  | putBack res | called res | returned res =>
    refine ⟨res, ?_⟩
    simp [Phase.script, List.append_assoc]
  | _ => cases hφ

/-- A poller that reads does not leave its events to the kernel, and neither the
other `poll` nor `deleteContext` says that it has read them. -/
theorem Phase.reaped_mem {g : Origin} {φ : Phase} (hm : Obs.reaped o ∈ φ.script cfg g o) :
    φ.inBlocked = true ∨ (∃ res, φ = .stopped res) ∨ (∃ res, φ = .dropped res) ∨
      (∃ res, φ = .warned res) ∨ ∃ res, φ = .reported res := by
  cases φ with
  | polled res | pollNoticed res | stored res index | entered res index =>
    simp [Phase.script, Origin.pollNotice, Origin.entry] at hm
  | submitted | completed res | discarded res => simp [Phase.script] at hm
  | stopped res => exact .inr (.inl ⟨res, rfl⟩)
  | dropped res => exact .inr (.inr (.inl ⟨res, rfl⟩))
  | warned res => exact .inr (.inr (.inr (.inl ⟨res, rfl⟩)))
  | reported res => exact .inr (.inr (.inr (.inr ⟨res, rfl⟩)))
  | _ => exact .inl rfl

omit [DecidableEq Tid] in
theorem mem_about {ob : Obs} (hob : ob ∈ s.log) (hop : ob.op? = some o) :
    ob ∈ about Obs.op? o s.log :=
  List.mem_filter.mpr ⟨hob, decide_eq_true hop⟩

omit [DecidableEq Tid] in
/-- A request is in transit or has ended, and the log says so. -/
theorem Coherent.cases {g : Origin} (h : Coherent cfg s) (hg : s.accepted[o]? = some g) :
    (∃ q, ∃ φ : Phase, (o, φ) ∈ s.phases q ∧ about Obs.op? o s.log = φ.script cfg g o) ∨
    (∀ q, o ∉ (s.phases q).map Prod.fst) ∧ ∃ φ : Phase, s.Ended o φ ∧
      φ.Needs s.dumbWriteHandler g ∧ about Obs.op? o s.log = φ.script cfg g o := by
  have htracks : Tracks Obs.op? (Finset.range s.accepted.length) s.phases s.log (s.Logged cfg)
    (s.Settled cfg) := h.tracked
  by_cases hk : ∃ q, o ∈ (s.phases q).map Prod.fst
  · obtain ⟨q, hq⟩ := hk
    obtain ⟨⟨o, φ⟩, hφ, rfl⟩ := List.mem_map.mp hq
    obtain ⟨g', hg', -, hlog⟩ := htracks.logged q o φ hφ
    obtain rfl := Option.some.inj (hg'.symm.trans hg)
    exact .inl ⟨q, φ, hφ, hlog⟩
  · have hnone : ∀ q, o ∉ (s.phases q).map Prod.fst := fun q hq => hk ⟨q, hq⟩
    have hO : o ∈ Finset.range s.accepted.length :=
      Finset.mem_range.mpr (List.getElem?_eq_some_iff.mp hg).1
    obtain ⟨φ, hend, g', hg', hneeds, hlog⟩ := htracks.settled o hO hnone
    obtain rfl := Option.some.inj (hg'.symm.trans hg)
    exact .inr ⟨hnone, φ, hend, hneeds, hlog⟩

omit [DecidableEq Tid] in
/-- The requests of the kernel have not been read. -/
theorem State.kernel_phase {φ : Phase} (hφ : (o, φ) ∈ s.phases none) :
    φ = .submitted ∨ ∃ res, φ = .completed res := by
  rcases List.mem_append.mp hφ with hφ | hφ
  · obtain ⟨r, -, he⟩ := List.mem_map.mp hφ
    exact .inl (Prod.mk.inj he).2.symm
  · obtain ⟨e, -, he⟩ := List.mem_map.mp hφ
    exact .inr ⟨e.res, (Prod.mk.inj he).2.symm⟩

omit [DecidableEq Tid] in
/-- A request that was read is at hand or has ended. -/
theorem Coherent.read_cases {g : Origin} (h : Coherent cfg s) (hl : LockedPoller s)
    (hg : s.accepted[o]? = some g) (hread : .reaped o ∈ s.log) :
    (∃ t, ∃ φ : Phase, s.AtHand t o ∧ φ.inBlocked = true ∧
      about Obs.op? o s.log = φ.script cfg g o) ∨
    (∀ t, ¬s.AtHand t o) ∧ ∃ φ : Phase, s.Ended o φ ∧ φ.inBlocked = false ∧
      φ.Needs s.dumbWriteHandler g ∧ about Obs.op? o s.log = φ.script cfg g o := by
  rcases h.cases hg with ⟨q, φ, hφ, hlog⟩ | ⟨hnone, φ, hend, hneeds, hlog⟩
  · cases q with
    | none =>
      have hmem := mem_about hread rfl
      rw [hlog] at hmem
      rcases State.kernel_phase hφ with rfl | ⟨res, rfl⟩ <;> simp [Phase.script] at hmem
    | some t => exact .inl ⟨t, φ, List.mem_map_of_mem hφ, State.inBlocked (hl.blocked t) hφ, hlog⟩
  · have hφ : φ.inBlocked = false :=
      Bool.eq_false_iff.mpr fun hφ => State.not_ended hφ hend
    exact .inr ⟨fun t => hnone (some t), φ, hend, hφ, hneeds, hlog⟩

omit [DecidableEq Tid] in
/-- **A request that was read before the sentinel is at hand or reported**, and
the log has its report so far. -/
theorem Delivery.reaped (h : Delivery cfg s) (ho : s.accepted[o]? = some (.user a))
    (hread : .reaped o ∈ s.log) (hbefore : ¬s.Behind o) :
    ∃ res, about Obs.op? o s.log = report cfg a o res ∨
      about Obs.op? o s.log <+: report cfg a o res ∧ ∃ t, s.AtHand t o := by
  have hproper := h.proper.accepted a (List.mem_of_getElem? ho)
  rcases h.coherent.read_cases h.locked ho hread with
    ⟨t, φ, hat, hφ, hlog⟩ | ⟨-, φ, hend, hφ, hneeds, hlog⟩
  · obtain ⟨res, hprefix⟩ := Phase.script_isPrefix (g := .user a) (o := o) hφ
    exact ⟨res, .inr ⟨hlog ▸ script_reported hproper.1 ▸ hprefix, t, hat⟩⟩
  · have hmem := mem_about hread rfl
    rw [hlog] at hmem
    rcases Phase.reaped_mem hmem with hφ' | ⟨res, rfl⟩ | ⟨res, rfl⟩ | ⟨res, rfl⟩ | ⟨res, rfl⟩
    · rw [hφ] at hφ'
      cases hφ'
    · exact absurd hneeds hproper.2
    · exact absurd hend hbefore
    · exact absurd (Option.isNone_iff_eq_none.mp hneeds.2) hproper.1
    · exact ⟨res, .inl (hlog.trans (script_reported hproper.1))⟩

/-! ### The steps to the end of the report -/

/-- The steps a thread needs for the rest of an event, and for the rest of its
batch. -/
def Stage.work : Stage → ℕ
  | .test => 0
  | .stop => 1
  | .sync => 12
  | .onError => 11
  | .take => 10
  | .put _ => 9
  | .done _ => 8
  | .inDone _ => 7
  | .release _ => 6
  | .deleteRef _ | .warn => 5

def Pc.work : Pc → ℕ
  | .blocked (.event f .test) => 12 * (f.result - f.i) + 1
  | .blocked (.event f st) => 12 * (f.result - (f.i + 1)) + st.work
  | _ => 0

theorem EventMoves.work_lt {f : Frame} {st : Stage} (hm : EventMoves cfg s t ans f st s') :
    (s'.pc t).work < (Pc.blocked (.event f st)).work := by
  cases hm <;> simp [State.goto, Pc.work, Stage.work] <;> omega

/-- Nothing holds up a thread in the loop over its batch. -/
theorem step_isSome {f : Frame} {st : Stage} (hpc : s.pc t = .blocked (.event f st)) :
    (next cfg s (.step t {})).isSome := by
  simp only [next, hpc, threadStep, blockedStep]
  cases st <;> simp only [eventStep] <;> repeat' first | rfl | split

/-! ### What stays true of a request that has been read -/

theorem Phase.script_nodup (g : Origin) (o : ℕ) (φ : Phase) : (φ.script cfg g o).Nodup := by
  cases φ <;> simp [Phase.script, Origin.notice, Origin.pollNotice, Origin.entry] <;>
    split_ifs <;> simp

omit [DecidableEq Tid] in
/-- The log says nothing twice about a request. -/
theorem Coherent.about_nodup (h : Coherent cfg s) (o : ℕ) : (about Obs.op? o s.log).Nodup := by
  rcases hg : s.accepted[o]? with _ | g
  · have hO : o ∉ Finset.range s.accepted.length := by simpa using hg
    rw [Tracks.fresh h.tracked o hO]
    exact List.nodup_nil
  · rcases h.cases hg with ⟨q, φ, -, hlog⟩ | ⟨-, φ, -, -, hlog⟩
    · rw [hlog]
      exact φ.script_nodup g o
    · rw [hlog]
      exact φ.script_nodup g o

omit [DecidableEq Tid] in
/-- A request that the log mentions has been accepted. -/
theorem Coherent.lt_of_mem {ob : Obs} (h : Coherent cfg s) (hob : ob ∈ s.log)
    (hop : ob.op? = some o) : o < s.accepted.length := by
  by_contra hlt
  have hnone := Tracks.fresh h.tracked o (by simpa using hlt)
  have hmem := mem_about hob hop
  rw [hnone] at hmem
  cases hmem

/-- What was read before the sentinel stays before it. -/
theorem Coherent.not_behind (h : Coherent cfg s) (h' : Coherent cfg s')
    (hn : next cfg s l = some s') (hh : s'.dumbWriteHandler = s.dumbWriteHandler)
    (hread : .reaped o ∈ s.log) (hb : ¬s.Behind o) : ¬s'.Behind o := by
  obtain ⟨hacc, obs, hobs⟩ := next_appends hn
  -- the step does not say again that `o` was read
  have hnot : .reaped o ∉ obs := by
    intro hob
    have hnd := h'.about_nodup o
    rw [← hobs, about_append] at hnd
    have hmem : ∀ {log : List Obs}, Obs.reaped o ∈ log → Obs.reaped o ∈ about Obs.op? o log :=
      fun hm => List.mem_filter.mpr ⟨hm, decide_eq_true rfl⟩
    exact (List.nodup_append.mp hnd).2.2 _ (hmem hread) _ (hmem hob) rfl
  rintro ⟨z, g, hz, hfd, hsub⟩
  have hsub' : [Obs.reaped z, Obs.reaped o].Sublist s.log := by
    rw [← hobs] at hsub
    obtain ⟨l₁, l₂, heq, hs₁, hs₂⟩ := List.sublist_append_iff.mp hsub
    rcases List.eq_nil_or_concat l₂ with rfl | ⟨init, x, rfl⟩
    · rw [List.append_nil] at heq
      exact heq ▸ hs₁
    · refine absurd ?_ hnot
      have hlast : x = Obs.reaped o := by
        have := congrArg List.getLast? heq
        simpa using this.symm
      exact hlast ▸ hs₂.subset (by simp)
  refine hb ⟨z, g, ?_, hh ▸ hfd, hsub'⟩
  have hlt := h.lt_of_mem (hsub'.subset List.mem_cons_self) (o := z) rfl
  have hold := getElem?_of_isPrefix hacc (List.getElem?_eq_getElem hlt)
  exact (List.getElem?_eq_getElem hlt).trans (hold.symm.trans hz)

/-- The first observation of a report is its result. -/
theorem result_unique {res res' : ℤ} {L : List Obs} (hL : L ≠ [])
    (h : L <+: report cfg a o res) (h' : L <+: report cfg a o res') : res = res' := by
  obtain ⟨ob, L, rfl⟩ := List.exists_cons_of_ne_nil hL
  obtain ⟨rest, heq⟩ := h
  obtain ⟨rest', heq'⟩ := h'
  simp only [report, List.cons_append, List.cons.injEq] at heq heq'
  exact (Obs.completed.inj (heq.1.symm.trans heq'.1)).2

/-- A report is not the beginning of another one. -/
theorem report_eq_of_isPrefix {res res' : ℤ} {L : List Obs} (h : report cfg a o res <+: L)
    (h' : L <+: report cfg a o res') : L = report cfg a o res := by
  obtain rfl : res = res' :=
    result_unique (L := report cfg a o res) (by simp [report]) List.prefix_rfl (h.trans h')
  exact (h.eq_of_length_le h'.length_le).symm

omit [DecidableEq Tid] in
theorem LockedPoller.of_atHand (h : LockedPoller s) (hat : s.AtHand t o) :
    s.pollLock = some t ∧ ∃ f st, s.pc t = .blocked (.event f st) := by
  have hq : ∃ f st, s.pc t = .blocked (.event f st) := by
    rw [State.AtHand] at hat
    rcases hpc : s.pc t with q | q | q | q | q <;> rw [hpc] at hat
    · cases hat
    · cases hat
    · cases q with
      | event f st => exact ⟨f, st, rfl⟩
      | _ => cases hat
    · exact absurd hpc (h.blocked t q)
    · cases hat
  obtain ⟨f, st, hpc⟩ := hq
  exact ⟨h.holder t (by rw [hpc]; rfl), f, st, hpc⟩

/-- Request `o` is one of submission `a` and was read before the sentinel. -/
structure ReadBefore (cfg : Config) (s : State Tid) (a : Submission) (o : ℕ) : Prop where
  delivery : Delivery cfg s
  accepted : s.accepted[o]? = some (.user a)
  read : .reaped o ∈ s.log
  first : ¬s.Behind o

theorem ReadBefore.step (h : ReadBefore cfg s a o) (hl : Delivers s l)
    (hn : next cfg s l = some s') : ReadBefore cfg s' a o := by
  obtain ⟨hacc, hlog⟩ := next_appends hn
  have h' := h.delivery.step hl hn
  have hne : l ≠ .closeDumbHandlers := by
    rintro rfl
    exact hl.2.1
  exact ⟨h', getElem?_of_isPrefix hacc h.accepted, hlog.subset h.read,
    h.delivery.coherent.not_behind h'.coherent hn (next_handler hn hne) h.read h.first⟩

/-- The report, once complete, is not added to. -/
theorem ReadBefore.reported_stays (h : ReadBefore cfg s a o) (hl : Delivers s l)
    (hn : next cfg s l = some s') {res : ℤ} (hrep : about Obs.op? o s.log = report cfg a o res) :
    about Obs.op? o s'.log = report cfg a o res := by
  have h' := h.step hl hn
  have hprefix : report cfg a o res <+: about Obs.op? o s'.log := by
    rw [← hrep]
    exact (next_appends hn).2.filter _
  obtain ⟨res', hrep' | ⟨hle, -⟩⟩ := h'.delivery.reaped h'.accepted h'.read h'.first
  · exact report_eq_of_isPrefix hprefix (by rw [hrep'])
  · exact report_eq_of_isPrefix hprefix hle

/-- The event stays with its thread until the report is complete. -/
theorem ReadBefore.stays (h : ReadBefore cfg s a o) (hl : Delivers s l)
    (hn : next cfg s l = some s') (hat : s.AtHand p o) :
    (∃ res, about Obs.op? o s'.log = report cfg a o res) ∨ s'.AtHand p o := by
  have h' := h.step hl hn
  obtain ⟨res, hrep | ⟨-, t, ht⟩⟩ := h'.delivery.reaped h'.accepted h'.read h'.first
  · exact .inl ⟨res, hrep⟩
  · -- the lock did not pass to another thread
    have hp := (h.delivery.locked.of_atHand hat).1
    have ht' := (h'.delivery.locked.of_atHand ht).1
    rcases h.delivery.locked.pollLock hl.1 hn hp with hlock | hlock <;> rw [hlock] at ht'
    · obtain rfl := Option.some.inj ht'
      exact .inr ht
    · cases ht'

/-- A step of the thread is work done, and the other threads leave it its work. -/
theorem work_step {f : Frame} {st : Stage} (hpc : s.pc p = .blocked (.event f st))
    (hn : next cfg s l = some s') :
    (s'.pc p).work + (if l.isOf p then 1 else 0) ≤ (s.pc p).work := by
  by_cases hmine : l.tid? = some p
  · have hlt : (s'.pc p).work < (s.pc p).work := by
      cases l with
      | call t m =>
        obtain rfl := Option.some.inj hmine
        cases next_moves hn with
        | call _ o _ _ hq _ =>
          rw [hq] at hpc
          cases hpc
      | step t ans =>
        obtain rfl := Option.some.inj hmine
        cases next_moves hn with
        | blocked _ _ q _ hq hm =>
          obtain rfl := Pc.blocked.inj (hpc.symm.trans hq)
          cases hm with
          | event _ _ _ hm =>
            rw [hpc]
            exact hm.work_lt
        | submit _ _ q _ hq _ | poll _ _ q _ hq _ | close _ _ q _ hq _ =>
          rw [hq] at hpc
          cases hpc
      | _ => cases hmine
    rw [Label.isOf, decide_eq_true hmine]
    exact hlt
  · rw [next_pc_of_ne hn hmine, Label.isOf, decide_eq_false hmine]
    exact le_rfl

/-- **After enough steps of the thread at hand the report is complete**, wherever
the steps of other threads fall. -/
theorem ReadBefore.reported_of_steps {ls : List (Label Tid)} (h : ReadBefore cfg s a o)
    (hat : s.AtHand p o) (hr : Run (next cfg) Delivers s ls s')
    (hcount : (s.pc p).work < ls.countP (Label.isOf p)) :
    ∃ res, about Obs.op? o s'.log = report cfg a o res := by
  have hrank := hr.rank
    (I := fun s => ReadBefore cfg s a o ∧
      ((∃ res, about Obs.op? o s.log = report cfg a o res) ∨ s.AtHand p o))
    (G := fun s => ∃ res, about Obs.op? o s.log = report cfg a o res)
    (Label.isOf p) (fun s => (s.pc p).work) ⟨h, .inr hat⟩ ?_ ?_ ?_
  · rcases hrank with hG | hle
    · exact hG
    · omega
  · rintro s l s' ⟨h, ⟨res, hrep⟩ | hat⟩ hl hn
    · exact ⟨h.step hl hn, .inl ⟨res, h.reported_stays hl hn hrep⟩⟩
    · exact ⟨h.step hl hn, h.stays hl hn hat⟩
  · rintro s l s' ⟨h, -⟩ hl hn ⟨res, hrep⟩
    exact ⟨res, h.reported_stays hl hn hrep⟩
  · rintro s l s' ⟨h, hrep | hat⟩ hl hn hno
    · exact absurd hrep hno
    · obtain ⟨-, f, st, hpc⟩ := h.delivery.locked.of_atHand hat
      exact work_step hpc hn

theorem ReadBefore.prefix_run {ls : List (Label Tid)} (hr : Run (next cfg) Delivers s ls s') :
    s.log <+: s'.log := by
  induction hr with
  | nil => exact List.prefix_rfl
  | cons _ hn _ ih => exact (next_appends hn).2.trans ih

theorem Delivery.of_reaches {env : Process} (hq : 0 < cfg.queueSize)
    (hr : Reaches (next cfg) Delivers (.initial cfg env) s) : Delivery cfg s :=
  hr.invariant (.initial hq env) fun _ _ _ h hl hn => h.step hl hn

/-- **Every request is delivered once, to its own callback.**  When `blockedPoll`
has read the event of a request before the sentinel, what the log says about the
request is the beginning of its report: completed, read, `onError` with the
negated result if that is negative, iocb put back, `done` on the callback of the
submission.  The report is complete, or the thread that holds `pollLock` can go
on, and completes it after some number of its steps, whatever happens between
them. -/
theorem delivered_once {env : Process} (hq : 0 < cfg.queueSize)
    (hr : Reaches (next cfg) Delivers (.initial cfg env) s)
    (ho : s.accepted[o]? = some (.user a)) (hread : .reaped o ∈ s.log)
    (hfirst : ∀ z fd, s.accepted[z]? = some (.stop fd) →
      ¬[Obs.reaped z, Obs.reaped o].Sublist s.log) :
    ∃ res, about Obs.op? o s.log <+: report cfg a o res ∧
      (about Obs.op? o s.log = report cfg a o res ∨
        ∃ t n, s.pollLock = some t ∧ (next cfg s (.step t {})).isSome ∧
          ∀ ls s', Run (next cfg) Delivers s ls s' → n < ls.countP (Label.isOf t) →
            about Obs.op? o s'.log = report cfg a o res) := by
  have h := Delivery.of_reaches hq hr
  have hbefore : ¬s.Behind o := by
    rintro ⟨z, g, hz, hfd, hsub⟩
    cases g with
    | user a' => exact (h.proper.accepted a' (List.mem_of_getElem? hz)).2 hfd
    | stop fd => exact hfirst z fd hz hsub
  have hrb : ReadBefore cfg s a o := ⟨h, ho, hread, hbefore⟩
  obtain ⟨res, hrep | ⟨hle, t, hat⟩⟩ := h.reaped ho hread hbefore
  · exact ⟨res, by rw [hrep], .inl hrep⟩
  · obtain ⟨hlock, f, st, hpc⟩ := h.locked.of_atHand hat
    refine ⟨res, hle, .inr ⟨t, (s.pc t).work, hlock, step_isSome hpc, fun ls s' hr' hn => ?_⟩⟩
    obtain ⟨res', hrep⟩ := hrb.reported_of_steps hat hr' hn
    -- the result is the one the log already has
    have hsome := List.ne_nil_of_mem (mem_about hread rfl)
    have hmore : about Obs.op? o s.log <+: report cfg a o res' :=
      hrep ▸ (ReadBefore.prefix_run hr').filter _
    rw [hrep, result_unique hsome hle hmore]

/-- A write is read and put back; its iocb is taken by a second write before the
callback of the first one is called. -/
def reuse : List (Label Bool) :=
  submits false ⟨.pwrite, 5, 0, 512, some 1⟩ ++
    [.complete 0 (-5), .call true .poll, .step true {}, .step true { events := 1 }] ++
    steps true 5 ++ submits false ⟨.pwrite, 5, 512, 512, some 2⟩

theorem delivered_once_reuse : ∃ s : State Bool,
    Reaches (next ⟨1, false, true⟩) Delivers (.sample ⟨1, false, true⟩) s ∧
      s.outstanding = {0} ∧
      about Obs.op? 0 s.log = [.completed 0 (-5), .reaped 0, .onError 0 (some 1) 5, .putBack 0] ∧
      ∃ n, ∀ ls s', Run (next ⟨1, false, true⟩) Delivers s ls s' →
        n < ls.countP (Label.isOf true) →
          about Obs.op? 0 s'.log = report ⟨1, false, true⟩ ⟨.pwrite, 5, 0, 512, some 1⟩ 0 (-5) := by
  obtain ⟨s, hr, hacc, hlog, hlock, hout, habout⟩ := exists_of_exec (next ⟨1, false, true⟩)
    Delivers (.sample ⟨1, false, true⟩) reuse
    (fun s : State Bool => s.accepted = [.user ⟨.pwrite, 5, 0, 512, some 1⟩,
      .user ⟨.pwrite, 5, 512, 512, some 2⟩] ∧ .reaped 0 ∈ s.log ∧ s.pollLock = some true ∧
      s.outstanding = {0} ∧ about Obs.op? 0 s.log
        = [.completed 0 (-5), .reaped 0, .onError 0 (some 1) 5, .putBack 0]) (by decide)
  have hfirst : ∀ z fd, s.accepted[z]? = some (.stop fd) →
      ¬[Obs.reaped z, Obs.reaped 0].Sublist s.log := by
    intro z fd hz
    simpa [hacc] using List.mem_of_getElem? hz
  obtain ⟨res, hle, hcase⟩ := delivered_once (by decide) hr (by rw [hacc]; rfl) hlog hfirst
  rw [habout] at hle hcase
  obtain rfl : -5 = res := by
    obtain ⟨rest, heq⟩ := hle
    exact (Obs.completed.inj (List.cons.inj heq).1).2
  rcases hcase with hrep | ⟨t, n, hlock', -, hrun⟩
  · cases hrep
  · obtain rfl := Option.some.inj (hlock.symm.trans hlock')
    exact ⟨s, hr, hout, habout, n, hrun⟩

end ArtemisNative
