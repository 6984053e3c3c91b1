/-
ArtemisNative/Duplicates.lean

The detector of duplicate records.

`blockedPoll` clears `data` in the iocb of every event it handles, and takes an
event whose iocb has `data` cleared already for a duplicate: it sets
`forceSysCall`, for the whole process, and leaves the iocb out of the pool.  But
`NULL` is also what `data` is for a submission without a callback.

`Serves` are the runs of submissions, with callbacks or without, and of threads
that call `poll()`.  In these the detector gives an alarm exactly for the
requests without a callback (`no_false_alarm_iff`).
-/
import ArtemisNative.Delivery

namespace ArtemisNative

open Transition

variable {Tid : Type} [DecidableEq Tid] {cfg : Config} {s s' : State Tid} {t : Tid}
variable {ans : Answer} {l : Label Tid} {o : ℕ} {a : Submission} {force : Bool}

/-! ### Submissions and `poll()` -/

/-- Threads submit and call `poll()`, and nothing else happens in the process. -/
def Submitting : Label Tid → Prop
  | .call _ (.submit _) | .call _ .poll | .step _ _ | .complete _ _ => True
  | _ => False

omit [DecidableEq Tid] in
instance : DecidablePred (Submitting : Label Tid → Prop)
  | .call _ (.submit _) | .call _ .poll | .step _ _ | .complete _ _ => isTrue trivial
  | .call _ (.pollInto _ _ _) | .call _ .close | .redeliver _ | .setForceSyscall _
  | .closeDumbHandlers => isFalse id

/-- Submissions are on descriptors other than the stop file, and the callbacks
there are return normally. -/
def Serves (s : State Tid) (l : Label Tid) : Prop :=
  Submitting l ∧ Smooth l ∧ l.Submits (·.fd ≠ s.dumbWriteHandler)

instance (s : State Tid) : DecidablePred (Serves s) := fun _ =>
  inferInstanceAs (Decidable (_ ∧ _ ∧ _))

/-- Nobody closes the context. -/
structure Unclosed (s : State Tid) : Prop where
  outside : ∀ t, (s.pc t).closes = false
  accepted : ∀ fd, .stop fd ∉ s.accepted

theorem Unclosed.keep {q : Pc} (h : Unclosed s) (hpc : s'.pc = Function.update s.pc t q)
    (hq : q.closes = false) (hacc : ∀ fd, .stop fd ∈ s'.accepted → .stop fd ∈ s.accepted) :
    Unclosed s' where
  outside := by
    intro u
    rw [hpc]
    by_cases hut : u = t
    · subst hut
      rwa [Function.update_self]
    · rw [Function.update_of_ne hut]
      exact h.outside u
  accepted := fun fd hfd => h.accepted fd (hacc fd hfd)

theorem Unclosed.step (h : Unclosed s) (hl : Submitting l) (hn : next cfg s l = some s') :
    Unclosed s' := by
  have hsame : ∀ fd, Origin.stop fd ∈ s.accepted → Origin.stop fd ∈ s.accepted := fun _ => id
  cases next_moves hn with
  | call t o m _ hpc hm =>
    cases hm with
    | closeAgain _ | close _ => exact hl.elim
    | _ => exact h.keep rfl rfl hsame
  | submit t ans q _ hpc hm =>
    cases hm with
    | accepted a b _ _ =>
      refine h.keep rfl rfl fun fd hfd => ?_
      rcases List.mem_append.mp hfd with hfd | hfd
      · exact hfd
      · cases List.mem_singleton.mp hfd
    | _ => exact h.keep rfl rfl hsame
  | blocked t ans q _ hpc hm =>
    cases hm with
    | readInterrupted f _ => exact h
    | event f st _ hm => cases hm <;> exact h.keep rfl rfl hsame
    | _ => exact h.keep rfl rfl hsame
  | poll t ans q _ hpc hm => cases hm <;> exact h.keep rfl rfl hsame
  | close t ans q _ hpc hm =>
    have hout := h.outside t
    rw [hpc] at hout
    cases hout
  | complete k res r hr _ => exact ⟨h.outside, h.accepted⟩
  | redeliver k ev _ => exact hl.elim
  | setForceSyscall value => exact hl.elim
  | closeDumbHandlers => exact hl.elim

omit [DecidableEq Tid] in
theorem Unclosed.blockedRun (h : Unclosed s) (hl : Submitting l) : BlockedRun s l := by
  cases l with
  | call t m => cases m <;> first | exact hl.elim | exact ⟨trivial, trivial, trivial⟩
  | step t ans =>
    refine ⟨trivial, trivial, fun hpc => ?_⟩
    have hout := h.outside t
    rw [hpc] at hout
    cases hout
  | complete k res => exact ⟨trivial, trivial, trivial⟩
  | _ => exact hl.elim

/-! ### The alarm -/

/-- The flag is set by an alarm and by nothing else. -/
def State.Alarmed (force : Bool) (s : State Tid) : Prop :=
  s.forceSysCall = force ∨ ∃ o, .warned o ∈ s.log

theorem State.Alarmed.step (h : s.Alarmed force) (hl : Submitting l)
    (hn : next cfg s l = some s') : s'.Alarmed force := by
  have hlog := (next_appends hn).2
  have hkeep : s'.forceSysCall = s.forceSysCall → s'.Alarmed force := by
    intro he
    rcases h with h | ⟨o, ho⟩
    · exact .inl (he.trans h)
    · exact .inr ⟨o, hlog.subset ho⟩
  cases next_moves hn with
  | call t o m _ hpc hm => cases hm <;> exact hkeep rfl
  | submit t ans q _ hpc hm => cases hm <;> exact hkeep rfl
  | blocked t ans q _ hpc hm =>
    cases hm with
    | event f st _ hm =>
      cases hm with
      | warned => exact .inr ⟨_, List.mem_append_right _ (List.mem_singleton_self _)⟩
      | _ => exact hkeep rfl
    | _ => exact hkeep rfl
  | poll t ans q _ hpc hm => cases hm <;> exact hkeep rfl
  | close t ans q _ hpc hm => cases hm <;> exact hkeep rfl
  | complete k res r hr _ => exact hkeep rfl
  | redeliver k ev _ => exact hkeep rfl
  | setForceSyscall value => exact hl.elim
  | closeDumbHandlers => exact hkeep rfl

structure Service (cfg : Config) (force : Bool) (s : State Tid) : Prop where
  coherent : Coherent cfg s
  locked : LockedPoller s
  unclosed : Unclosed s
  submitted : Submitted (·.fd ≠ s.dumbWriteHandler) s
  alarmed : s.Alarmed force

theorem Service.step (h : Service cfg force s) (hl : Serves s l)
    (hn : next cfg s l = some s') : Service cfg force s' where
  coherent := h.coherent.step hl.2.1 (h.unclosed.blockedRun hl.1).2.1 (h.locked.readsAlone l) hn
  locked := h.locked.step (h.unclosed.blockedRun hl.1) hn
  unclosed := h.unclosed.step hl.1 hn
  submitted := by
    have hne : l ≠ .closeDumbHandlers := by
      rintro rfl
      exact hl.1
    rw [next_handler hn hne]
    exact h.submitted.step hl.2.2 hn
  alarmed := h.alarmed.step hl.1 hn

theorem Service.of_reaches {env : Process} (hq : 0 < cfg.queueSize)
    (hr : Reaches (next cfg) Serves (.initial cfg env) s) :
    Service cfg env.forceSysCall s := by
  refine hr.invariant ?_ fun _ _ _ h hl hn => h.step hl hn
  refine ⟨.initial hq env, .initial env, ⟨fun _ => rfl, ?_⟩, .initial _ env, .inl rfl⟩
  simp [State.initial]

omit [DecidableEq Tid] in
/-- A request that was read and is not at hand any more has been reported, if it
has a callback, and has raised the alarm, if it has none. -/
theorem Service.handled (h : Service cfg force s) (ho : s.accepted[o]? = some (.user a))
    (hread : .reaped o ∈ s.log) (hno : ∀ t, ¬s.AtHand t o) :
    (a.callback = none ∧ .warned o ∈ s.log) ∨
      (a.callback ≠ none ∧ ∃ res, about Obs.op? o s.log = report cfg a o res) := by
  rcases h.coherent.read_cases h.locked ho hread with
    ⟨t, φ, hat, -, -⟩ | ⟨-, φ, hend, hφ, hneeds, hlog⟩
  · exact absurd hat (hno t)
  · have hmem := mem_about hread rfl
    rw [hlog] at hmem
    rcases Phase.reaped_mem hmem with hφ' | ⟨res, rfl⟩ | ⟨res, rfl⟩ | ⟨res, rfl⟩ | ⟨res, rfl⟩
    · rw [hφ] at hφ'
      cases hφ'
    · exact absurd hneeds (h.submitted.accepted a (List.mem_of_getElem? ho))
    · -- nothing was taken for the sentinel
      obtain ⟨z, g, hz, hfd, -⟩ := hend
      cases g with
      | user a' => exact absurd hfd (h.submitted.accepted a' (List.mem_of_getElem? hz))
      | stop fd => exact absurd (List.mem_of_getElem? hz) (h.unclosed.accepted fd)
    · refine .inl ⟨Option.isNone_iff_eq_none.mp hneeds.2, ?_⟩
      have hw : .warned o ∈ about Obs.op? o s.log := by
        rw [hlog]
        simp [Phase.script]
      exact (List.mem_filter.mp hw).1
    · have hcb : a.callback ≠ none :=
        Option.isSome_iff_ne_none.mp (Option.isNone_eq_false_iff.mp hneeds.2)
      exact .inr ⟨hcb, res, hlog.trans (script_reported hcb)⟩

theorem Phase.warned_mem {g : Origin} {φ : Phase} (hm : Obs.warned o ∈ φ.script cfg g o) :
    ∃ res, φ = .warned res := by
  cases φ with
  | warned res => exact ⟨res, rfl⟩
  | _ => simp [Phase.script, Origin.notice, Origin.pollNotice, Origin.entry] at hm

omit [DecidableEq Tid] in
/-- An alarm is about a request that was read, is not at hand, and has no
callback. -/
theorem Service.warned (h : Service cfg force s) (hw : .warned o ∈ s.log) :
    ∃ a, s.accepted[o]? = some (.user a) ∧ a.callback = none ∧ .reaped o ∈ s.log ∧
      ∀ t, ¬s.AtHand t o := by
  have hlt := h.coherent.lt_of_mem hw rfl
  have hg := List.getElem?_eq_getElem hlt
  cases hor : s.accepted[o] with
  | stop fd => exact absurd (hor ▸ List.getElem_mem hlt) (h.unclosed.accepted fd)
  | user a =>
    rw [hor] at hg
    have hmem := mem_about hw rfl
    rcases h.coherent.cases hg with ⟨q, φ, hφ, hlog⟩ | ⟨hnone, φ, hend, hneeds, hlog⟩
    · rw [hlog] at hmem
      obtain ⟨res, rfl⟩ := Phase.warned_mem hmem
      cases q with
      | none => rcases State.kernel_phase hφ with hφ | ⟨_, hφ⟩ <;> cases hφ
      | some t => cases State.inBlocked (h.locked.blocked t) hφ
    · rw [hlog] at hmem
      obtain ⟨res, rfl⟩ := Phase.warned_mem hmem
      refine ⟨a, hg, Option.isNone_iff_eq_none.mp hneeds.2, ?_, fun t => hnone (some t)⟩
      have hread : .reaped o ∈ about Obs.op? o s.log := by
        rw [hlog]
        simp [Phase.script]
      exact (List.mem_filter.mp hread).1

/-- **The detector gives no false alarm exactly when every request handled so far
had a callback.**  Then no alarm is given, `forceSysCall` keeps its value, and the
iocb of every request that was handled is put back and its permit released,
once each. -/
theorem no_false_alarm_iff {env : Process} (hq : 0 < cfg.queueSize)
    (hr : Reaches (next cfg) Serves (.initial cfg env) s) :
    ((∀ o, .warned o ∉ s.log) ∧ s.forceSysCall = env.forceSysCall ∧
      ∀ o a, s.accepted[o]? = some (.user a) → .reaped o ∈ s.log → (∀ t, ¬s.AtHand t o) →
        s.log.count (.putBack o) = 1 ∧
          (cfg.useSemaphore = true → s.log.count (.released o) = 1)) ↔
    ∀ o a, s.accepted[o]? = some (.user a) → .reaped o ∈ s.log → (∀ t, ¬s.AtHand t o) →
      a.callback ≠ none := by
  have h := Service.of_reaches hq hr
  constructor
  · rintro ⟨hquiet, -, -⟩ o a ho hread hno hnull
    rcases h.handled ho hread hno with ⟨-, hw⟩ | ⟨hcb, -⟩
    · exact hquiet o hw
    · exact hcb hnull
  · intro hall
    have hquiet : ∀ o, .warned o ∉ s.log := by
      intro o hw
      obtain ⟨a, ho, hnull, hread, hno⟩ := h.warned hw
      exact hall o a ho hread hno hnull
    refine ⟨hquiet, ?_, fun o a ho hread hno => ?_⟩
    · rcases h.alarmed with hf | ⟨o, ho⟩
      · exact hf
      · exact absurd ho (hquiet o)
    · rcases h.handled ho hread hno with ⟨-, hw⟩ | ⟨-, res, hrep⟩
      · exact absurd hw (hquiet o)
      · have hcount : ∀ ob : Obs, ob.op? = some o →
            s.log.count ob = (report cfg a o res).count ob := by
          intro ob hob
          rw [← hrep, about, List.count_filter (by simpa using hob)]
        rw [hcount _ rfl, hcount _ rfl]
        refine ⟨?_, fun hsem => ?_⟩
        · simp only [report, List.count_append]
          split_ifs <;> simp
        · simp only [report, List.count_append, hsem]
          split_ifs <;> simp

/-- A write with a callback and one without; both are handled. -/
def withoutCallback : List (Label Bool) :=
  submits false ⟨.pwrite, 5, 0, 512, some 1⟩ ++ submits false ⟨.pwrite, 5, 512, 512, none⟩ ++
    [.complete 0 512, .complete 0 512, .call true .poll, .step true {},
      .step true { events := 2 }]

/-- While the first write has been handled and the second one has not, there is
no alarm. -/
theorem no_false_alarm_first : ∃ s : State Bool,
    Reaches (next ⟨2, true, true⟩) Serves (.sample ⟨2, true, true⟩) s ∧
      s.forceSysCall = false ∧ s.log.count (.putBack 0) = 1 ∧ s.log.count (.released 0) = 1 := by
  obtain ⟨s, hr, hacc, hread, hfst, hsnd⟩ := exists_of_exec (next ⟨2, true, true⟩) Serves
    (.sample ⟨2, true, true⟩) (withoutCallback ++ steps true 9)
    (fun s : State Bool => s.accepted = [.user ⟨.pwrite, 5, 0, 512, some 1⟩,
      .user ⟨.pwrite, 5, 512, 512, none⟩] ∧ .reaped 0 ∈ s.log ∧
      (∀ t, 0 ∉ ((s.pc t).phases s.events).map Prod.fst) ∧
      1 ∈ ((s.pc true).phases s.events).map Prod.fst) (by decide)
  obtain ⟨-, hforce, hall⟩ := (no_false_alarm_iff (by decide) hr).mpr (by
    intro o a ho _ hno
    rw [hacc] at ho
    match o with
    | 0 =>
      obtain rfl := Origin.user.inj (Option.some.inj ho)
      nofun
    | 1 => exact absurd hsnd (hno true)
    | n + 2 => cases ho)
  obtain ⟨hput, hrel⟩ := hall 0 _ (by rw [hacc]; rfl) hread hfst
  exact ⟨s, hr, hforce, hput, hrel rfl⟩

/-- The second one sets the flag, and its iocb and its permit are lost. -/
theorem false_alarm_without_callback : ∃ s : State Bool,
    Reaches (next ⟨2, true, true⟩) Serves (.sample ⟨2, true, true⟩) s ∧
      s.accepted[1]? = some (.user ⟨.pwrite, 5, 512, 512, none⟩) ∧ .reaped 1 ∈ s.log ∧
      (∀ t, 1 ∉ ((s.pc t).phases s.events).map Prod.fst) ∧
      .warned 1 ∈ s.log ∧ s.forceSysCall = true ∧ .putBack 1 ∉ s.log ∧ s.outstanding = {1} ∧
      s.inflight = [] ∧ s.ring = [] ∧ s.ioSpace = 1 :=
  exists_of_exec _ _ _ (withoutCallback ++ steps true 14) _ (by decide)

end ArtemisNative
