/-
ArtemisNative/Sentinel.lean

What ends the blocked poller.

`blockedPoll` takes an event for the sentinel if its iocb is on the descriptor
`dumbWriteHandler`; `poll` and `submit` look at `data = -1`.  The two tests agree
on an iocb (`State.Agrees`) as long as three things hold when it is written:

* a submission is prepared on another descriptor than `dumbWriteHandler`;
* `take` does not clear the mark of a sentinel that was prepared in between;
* `closeDumbHandlers`, which makes `0` the descriptor of the sentinel, finds no
  sentinel and no request on descriptor `0` under way.

`deleteContext` puts the stop file into the sentinel as long as no cleanup has
come first.  The code checks none of this; under the discipline `TellsApart` the
tests agree in every context of the library (`sentinel_recognised`).
-/
import ArtemisNative.Ownership
import ArtemisNative.StopFile

namespace ArtemisNative

open Transition

variable {Tid : Type} [DecidableEq Tid] {cfg : Config} {s s' : State Tid} {t : Tid}
variable {ans : Answer} {l : Label Tid} {b : ℕ} {q : Pc}

/-! ### The two tests -/

/-- Both pollers take the iocb `b` for the sentinel, or neither does. -/
def State.Agrees (s : State Tid) (b : ℕ) : Prop :=
  (s.iocb b).aio_fildes = s.dumbWriteHandler ↔ (s.iocb b).data = .stop

/-- The iocb a thread is about to pass to `io_submit`. -/
def Pc.atSubmit : Pc → Option ℕ
  | .submit (.ioSubmit _ b) | .close (.ioSubmit b) => some b
  | _ => none

/-- The number of events a blocked poller has at hand. -/
def Pc.fetched : Pc → ℕ
  | .blocked (.event f _) => f.result
  | _ => 0

/-- The iocb `b` is prepared: about to be submitted, in flight, or delivered. -/
inductive State.Prepared (s : State Tid) : ℕ → Prop
  | atSubmit (t : Tid) (b : ℕ) (h : (s.pc t).atSubmit = some b) : Prepared s b
  | inflight (r : Request) (h : r ∈ s.inflight) : Prepared s r.obj
  | delivered (ev : IoEvent) (h : ev ∈ s.delivered) : Prepared s ev.obj

/-- The tests agree on every prepared iocb, and the events a blocked poller has
at hand have been delivered. -/
structure Agreed (s : State Tid) : Prop where
  agrees : ∀ b, s.Prepared b → s.Agrees b
  ring : ∀ ev ∈ s.ring, ev ∈ s.delivered
  batch : ∀ t j, j < (s.pc t).fetched → s.events j ∈ s.delivered

/-- The conditions at a position: the descriptor of a submission, and the mark of
the iocb that is cleared. -/
def State.apart (s : State Tid) : Pc → Bool
  | .submit (.prep a _) => decide (a.fd ≠ s.dumbWriteHandler)
  | .blocked (.event f .take) => decide ((s.iocb (s.events f.i).obj).data ≠ .stop)
  | _ => true

/-- No step mixes up the sentinel and a request. -/
def TellsApart (s : State Tid) : Label Tid → Prop
  | .step t _ => s.apart (s.pc t) = true
  | .closeDumbHandlers => s.dumbWriteHandler ≠ 0 → ∀ b, s.Prepared b →
      (s.iocb b).aio_fildes ≠ 0 ∧ (s.iocb b).data ≠ .stop
  | _ => True

/-! ### The tests stay in agreement -/

/-- What the kernel and the buffer hold. -/
def State.parcels (s : State Tid) := (s.inflight, s.delivered, s.ring, s.events)

/-- Thread `t` goes on and hands nothing to the kernel.  `hio`: what it writes keeps
the tests in agreement; `hsub`: also on an iocb it has just prepared. -/
theorem Agreed.goto (h : Agreed s) (hs : s'.parcels = s.parcels)
    (hio : ∀ b, s.Prepared b → s'.Agrees b) (hpc : s'.pc = Function.update s.pc t q)
    (hsub : ∀ b, q.atSubmit = some b → s'.Agrees b) (hbatch : q.fetched ≤ (s.pc t).fetched) :
    Agreed s' := by
  simp only [State.parcels, Prod.mk.injEq] at hs
  obtain ⟨hi, hd, hr, he⟩ := hs
  refine ⟨?_, by rw [hr, hd]; exact h.ring, ?_⟩
  · intro b hb
    cases hb with
    | atSubmit u _ hu =>
      rcases pc_cases hpc u with ⟨-, hq⟩ | ⟨-, hq⟩ <;> rw [hq] at hu
      · exact hsub b hu
      · exact hio b (.atSubmit u b hu)
    | inflight r hr => exact hio _ (.inflight r (hi ▸ hr))
    | delivered ev hev => exact hio _ (.delivered ev (hd ▸ hev))
  · intro u j hj
    rw [he, hd]
    rcases pc_cases hpc u with ⟨-, hq⟩ | ⟨-, hq⟩ <;> rw [hq] at hj
    · exact h.batch t j (lt_of_lt_of_le hj hbatch)
    · exact h.batch u j hj

/-- A move that writes no iocb. -/
theorem Agreed.keep (h : Agreed s) (hs : s'.parcels = s.parcels) (hio : s'.iocb = s.iocb)
    (hh : s'.dumbWriteHandler = s.dumbWriteHandler) (hpc : s'.pc = Function.update s.pc t q)
    (hsub : q.atSubmit = none) (hbatch : q.fetched ≤ (s.pc t).fetched) : Agreed s' := by
  refine h.goto hs (fun b hb => ?_) hpc (fun b hq => ?_) hbatch
  · unfold State.Agrees
    rw [hio, hh]
    exact h.agrees b hb
  · rw [hsub] at hq
    cases hq

/-- The kernel accepts an iocb that was prepared. -/
theorem Agreed.accept {origin : Origin} (h : Agreed s) (hb : s.Prepared b)
    (hsub : q.atSubmit = none) (hbatch : q.fetched = 0) :
    Agreed ((s.accept b origin).goto t q) := by
  have hpc : ((s.accept b origin).goto t q).pc = Function.update s.pc t q := rfl
  refine ⟨?_, h.ring, ?_⟩
  · intro b' hb'
    refine h.agrees b' ?_
    cases hb' with
    | atSubmit u _ hu =>
      rcases pc_cases hpc u with ⟨-, hq⟩ | ⟨-, hq⟩ <;> rw [hq] at hu
      · rw [hsub] at hu
        cases hu
      · exact .atSubmit u b' hu
    | inflight r hr =>
      rcases List.mem_append.mp hr with hr | hr
      · exact .inflight r hr
      · obtain rfl := List.mem_singleton.mp hr
        exact hb
    | delivered ev hev => exact .delivered ev hev
  · intro u j hj
    rcases pc_cases hpc u with ⟨-, hq⟩ | ⟨-, hq⟩ <;> rw [hq] at hj
    · omega
    · exact h.batch u j hj

/-- A read moves delivered events into the buffer; another thread's batch may get
other events, but delivered ones. -/
theorem Agreed.read {k : ℕ} {obs : ℕ → Obs} (h : Agreed s) (hk : k ≤ s.ring.length)
    (hsub : q.atSubmit = none) (hbatch : q.fetched ≤ k) :
    Agreed ((s.getEvents k obs).goto t q) := by
  have hpc : ((s.getEvents k obs).goto t q).pc = Function.update s.pc t q := rfl
  have hevents : ∀ j, ((s.getEvents k obs).goto t q).events j ∈ s.ring ∨
      k ≤ j ∧ ((s.getEvents k obs).goto t q).events j = s.events j := by
    intro j
    show ((s.ring.take k)[j]?).getD (s.events j) ∈ s.ring ∨
      k ≤ j ∧ ((s.ring.take k)[j]?).getD (s.events j) = s.events j
    by_cases hj : j < k
    · have hlt : j < s.ring.length := by omega
      refine .inl ?_
      rw [List.getElem?_take_of_lt hj, List.getElem?_eq_getElem hlt]
      exact List.getElem_mem hlt
    · refine .inr ⟨by omega, ?_⟩
      rw [List.getElem?_eq_none (by simp; omega)]
      rfl
  refine ⟨?_, fun ev hev => h.ring ev (List.mem_of_mem_drop hev), ?_⟩
  · intro b hb
    refine h.agrees b ?_
    cases hb with
    | atSubmit u _ hu =>
      rcases pc_cases hpc u with ⟨-, hq⟩ | ⟨-, hq⟩ <;> rw [hq] at hu
      · rw [hsub] at hu
        cases hu
      · exact .atSubmit u b hu
    | inflight r hr => exact .inflight r hr
    | delivered ev hev => exact .delivered ev hev
  · intro u j hj
    rcases hevents j with hmem | ⟨hle, he⟩
    · exact h.ring _ hmem
    · rcases pc_cases hpc u with ⟨-, hq⟩ | ⟨-, hq⟩ <;> rw [hq] at hj
      · omega
      · rw [he]
        exact h.batch u j hj

omit [DecidableEq Tid] in
/-- A step of the kernel. -/
theorem Agreed.kernel (h : Agreed s) (hpc : s'.pc = s.pc) (hio : s'.iocb = s.iocb)
    (hh : s'.dumbWriteHandler = s.dumbWriteHandler) (he : s'.events = s.events)
    (hi : ∀ r ∈ s'.inflight, r ∈ s.inflight) (hd : s.delivered ⊆ s'.delivered)
    (hnew : ∀ ev ∈ s'.delivered, s.Prepared ev.obj) (hr : ∀ ev ∈ s'.ring, ev ∈ s'.delivered) :
    Agreed s' := by
  refine ⟨?_, hr, ?_⟩
  · intro b hb
    have hold : s.Prepared b := by
      cases hb with
      | atSubmit u _ hu => exact .atSubmit u b (hpc ▸ hu)
      | inflight r hr => exact .inflight r (hi r hr)
      | delivered ev hev => exact hnew ev hev
    unfold State.Agrees
    rw [hio, hh]
    exact h.agrees b hold
  · intro u j hj
    rw [he]
    exact hd (h.batch u j (hpc ▸ hj))

/-- Thread `t` writes the iocb `b`.  `hm`: if it is prepared, before or afterwards, then
the tests agree on what is written. -/
theorem Agreed.write {m : Iocb} (refs : GlobalRefs) (h : Agreed s)
    (hm : s.Prepared b ∨ q.atSubmit = some b →
      (m.aio_fildes = s.dumbWriteHandler ↔ m.data = .stop))
    (hsub : ∀ b', q.atSubmit = some b' → b' = b) (hbatch : q.fetched ≤ (s.pc t).fetched) :
    Agreed (({ s with refs := refs }.setIocb b m).goto t q) := by
  have hself : s.Prepared b ∨ q.atSubmit = some b →
      (({ s with refs := refs }.setIocb b m).goto t q).Agrees b := by
    intro hb
    show (Function.update s.iocb b m b).aio_fildes = s.dumbWriteHandler ↔
      (Function.update s.iocb b m b).data = .stop
    rw [Function.update_self]
    exact hm hb
  refine h.goto rfl (fun b' hb' => ?_) rfl (fun b' hq => ?_) hbatch
  · by_cases hbb : b' = b
    · subst hbb
      exact hself (.inl hb')
    · show (Function.update s.iocb b m b').aio_fildes = s.dumbWriteHandler ↔
        (Function.update s.iocb b m b').data = .stop
      rw [Function.update_of_ne hbb]
      exact h.agrees b' hb'
  · obtain rfl := hsub b' hq
    exact hself (.inr hq)

/-- `take` clears the mark of no sentinel, so the iocb is on another descriptor. -/
theorem Agreed.take {f : Frame} {st : Stage} (h : Agreed s)
    (hpc : s.pc t = .blocked (.event f .take))
    (hap : s.apart (.blocked (.event f .take)) = true) :
    Agreed ((s.setIocb (s.events f.i).obj
      { s.iocb (s.events f.i).obj with data := .null }).goto t (.blocked (.event f st))) := by
  have hdata : (s.iocb (s.events f.i).obj).data ≠ .stop := of_decide_eq_true hap
  refine h.write s.refs ?_ (fun b' hq => ?_) ?_
  · rintro (hb | hq)
    · refine ⟨fun hfd => ?_, nofun⟩
      exact absurd ((h.agrees _ hb).mp hfd) hdata
    · cases hq
  · cases hq
  · rw [hpc]
    exact le_rfl

theorem Agreed.event {f : Frame} {st : Stage} (h : Agreed s)
    (hpc : s.pc t = .blocked (.event f st)) (hap : s.apart (.blocked (.event f st)) = true)
    (hm : EventMoves cfg s t ans f st s') : Agreed s' := by
  have hbatch : f.result ≤ (s.pc t).fetched := by
    rw [hpc]
    exact le_rfl
  cases hm with
  | takenNull _ | taken _ => exact h.take hpc hap
  | stopped | batchEnd _ => exact h.keep rfl rfl rfl rfl rfl (Nat.zero_le _)
  | _ => exact h.keep rfl rfl rfl rfl rfl hbatch

/-- **Every step keeps the two tests in agreement, unless it is one of the three that
mix up the sentinel and a request.** -/
theorem Agreed.step (h : Agreed s) (hl : TellsApart s l) (hn : next cfg s l = some s') :
    Agreed s' := by
  cases next_moves hn with
  | call t o m _ hpc hm => cases hm <;> exact h.keep rfl rfl rfl rfl rfl (Nat.zero_le _)
  | submit t ans q _ hpc hm =>
    cases hm with
    | prepared a b =>
      have hfd : a.fd ≠ s.dumbWriteHandler := by
        have hap : s.apart (s.pc t) = true := hl
        rw [hpc] at hap
        exact of_decide_eq_true hap
      refine h.write _ (fun _ => ⟨fun he => absurd he hfd, fun hdata => ?_⟩) (fun b' hq => ?_)
        (Nat.zero_le _)
      · have hdata : (s.refs.new a.callback).1 = .stop := hdata
        cases hcb : a.callback <;> rw [hcb] at hdata <;> cases hdata
      · exact (Option.some.inj hq).symm
    | accepted a b _ _ => exact h.accept (.atSubmit t b (by rw [hpc]; rfl)) rfl rfl
    | _ => exact h.keep rfl rfl rfl rfl rfl (Nat.zero_le _)
  | blocked t ans q _ hpc hm =>
    cases hm with
    | readInterrupted f _ => exact h
    | read f k _ hk => exact h.read hk rfl le_rfl
    | event f st _ hm =>
      have hap : s.apart (s.pc t) = true := hl
      rw [hpc] at hap
      exact h.event hpc hap hm
    | _ => exact h.keep rfl rfl rfl rfl rfl (Nat.zero_le _)
  | poll t ans q _ hpc hm =>
    cases hm with
    | read _ _ _ k _ hk => exact h.read hk rfl (Nat.zero_le _)
    | _ => exact h.keep rfl rfl rfl rfl rfl (Nat.zero_le _)
  | close t ans q _ hpc hm =>
    cases hm with
    | prepared b =>
      refine h.write s.refs (fun _ => ⟨fun _ => rfl, fun _ => rfl⟩) (fun b' hq => ?_)
        (Nat.zero_le _)
      exact (Option.some.inj hq).symm
    | accepted b _ _ => exact h.accept (.atSubmit t b (by rw [hpc]; rfl)) rfl rfl
    | read k _ hk => exact h.read hk rfl (Nat.zero_le _)
    | queueReleased =>
      have hforget : Agreed { s with inflight := [], ring := [] } :=
        h.kernel rfl rfl rfl rfl nofun (List.Subset.refl _) (fun ev hev => .delivered ev hev) nofun
      exact hforget.keep rfl rfl rfl rfl rfl (Nat.zero_le _)
    | _ => exact h.keep rfl rfl rfl rfl rfl (Nat.zero_le _)
  | complete k res r hr _ =>
    have hmem : r ∈ s.inflight := List.mem_of_getElem? hr
    refine h.kernel rfl rfl rfl rfl (fun r' hr' => List.mem_of_mem_eraseIdx hr')
      (List.subset_append_left _ _) (fun ev hev => ?_) (fun ev hev => ?_)
    · rcases List.mem_append.mp hev with hev | hev
      · exact .delivered ev hev
      · obtain rfl := List.mem_singleton.mp hev
        exact .inflight r hmem
    · rcases List.mem_append.mp hev with hev | hev
      · exact List.mem_append_left _ (h.ring ev hev)
      · exact List.mem_append_right _ hev
  | redeliver k ev hev =>
    refine h.kernel rfl rfl rfl rfl (fun _ => id) (List.Subset.refl _)
      (fun ev hev => .delivered ev hev) (fun ev' hev' => ?_)
    rcases List.mem_append.mp hev' with hev' | hev'
    · exact h.ring ev' hev'
    · obtain rfl := List.mem_singleton.mp hev'
      exact List.mem_of_getElem? hev
  | setForceSyscall value =>
    exact h.kernel rfl rfl rfl rfl (fun _ => id) (List.Subset.refl _)
      (fun ev hev => .delivered ev hev) h.ring
  | closeDumbHandlers =>
    by_cases hzero : s.dumbWriteHandler = 0
    · have hsame : ({ s with dumbWriteHandler := 0 } : State Tid) = s := by rw [← hzero]
      rw [hsame]
      exact h
    · refine ⟨fun b hb => ?_, h.ring, h.batch⟩
      have hold : s.Prepared b := by
        cases hb with
        | atSubmit u _ hu => exact .atSubmit u b hu
        | inflight r hr => exact .inflight r hr
        | delivered ev hev => exact .delivered ev hev
      obtain ⟨hfd, hdata⟩ := hl hzero b hold
      exact ⟨fun he => absurd he hfd, fun he => absurd he hdata⟩

omit [DecidableEq Tid] in
theorem Agreed.initial (env : Process) : Agreed (.initial cfg env : State Tid) where
  agrees := by
    intro b hb
    cases hb with
    | atSubmit u _ hu => cases hu
    | inflight r hr => cases hr
    | delivered ev hev => cases hev
  ring := by simp [State.initial]
  batch := by simp [State.initial, Pc.fetched]

/-! ### The two steps -/

/-- The poller ends its loop where the iocb is on the descriptor of the stop file. -/
theorem test_ends {f : Frame} (hn : next cfg s (.step t ans) = some s')
    (hpc : s.pc t = .blocked (.event f .test)) (hlt : f.i < f.result) :
    s'.pc t = .blocked (.event f .stop) ↔
      (s.iocb (s.events f.i).obj).aio_fildes = s.dumbWriteHandler := by
  cases next_moves hn with
  | blocked _ _ q _ hq hm =>
    obtain rfl : BlockedPc.event f .test = q := by simpa [hpc] using hq
    cases hm with
    | event _ _ _ hm =>
      cases hm with
      | isStop _ hfd => simp [State.goto, hfd]
      | isEvent _ hfd => simp [State.goto, hfd]
      | batchEnd hle => omega
  | submit _ _ q _ hq _ | poll _ _ q _ hq _ | close _ _ q _ hq _ => simp [hpc] at hq

/-- `deleteContext` puts whatever `dumbWriteHandler` is into the sentinel. -/
theorem prep_puts (hn : next cfg s (.step t ans) = some s')
    (hpc : s.pc t = .close (.prep b)) : s'.iocb b = sentinel s.dumbWriteHandler := by
  cases next_moves hn with
  | close _ _ q _ hq hm =>
    obtain rfl : ClosePc.prep b = q := by simpa [hpc] using hq
    cases hm
    exact Function.update_self ..
  | submit _ _ q _ hq _ | poll _ _ q _ hq _ | blocked _ _ q _ hq _ => simp [hpc] at hq

/-! ### In every context of the library -/

namespace Library

variable {L L' : Library Tid} {a : Act Tid} {t : Tid} {c : ℕ} {o o' : Instance Tid}
variable {files : Slots OpenFile}

/-- The conditions on an act: in every context that is not freed it is no step that mixes
up the sentinel and a request; nobody else closes the stop file; and
`deleteContext` prepares its sentinel before any cleanup that has had an effect. -/
structure KeepsStopFile (files : Slots OpenFile) (L : Library Tid) (a : Act Tid) : Prop where
  apart : ∀ (c : ℕ) (o : Instance Tid) (l : Label Tid), L.objects[c]? = some o →
    o.state.freed = false → L.Projects c a l → TellsApart (L.view o) l
  spares : Spares files.lowest a
  prepares : ∀ (t : Tid) (ans : Answer) (c b : ℕ) (o : Instance Tid), a = .step t ans →
    L.pc t = .inside c → L.objects[c]? = some o → o.state.pc t = .close (.prep b) →
    L.dumbWriteHandler = files.lowest

/-- In every context that is not freed the tests agree. -/
def AllAgreed (L : Library Tid) : Prop :=
  ∀ (c : ℕ) (o : Instance Tid), L.objects[c]? = some o → o.state.freed = false →
    Agreed (L.view o)

theorem AllAgreed.step (h : L.AllAgreed) (ha : L.KeepsStopFile files a)
    (hn : L.next a = some L') : L'.AllAgreed := by
  intro c o' ho' hfree
  rcases next_objects hn ho' with ⟨o, ho⟩ | ⟨t, x, env, -, -, -, -, hv⟩
  · obtain ⟨o₁, ho₁, -, hstep⟩ := next_advances hn ho
    obtain rfl := Option.some.inj (ho'.symm.trans ho₁)
    rcases hstep with hv | ⟨l, hp, hl⟩
    · have hfree₀ : o.state.freed = false := (congrArg State.freed hv).symm.trans hfree
      rw [hv]
      exact h c o ho hfree₀
    · have hfree₀ : (L.view o).freed = false := next_freed hl hfree
      exact (h c o ho hfree₀).step (ha.apart c o l ho hfree₀ hp) hl
  · rw [hv]
    exact .initial _

/-- What is promised of a step: a blocked poller ends its loop on an event if and only if
its iocb carries the mark of the sentinel, and `deleteContext` puts the open stop
file into the sentinel. -/
structure Recognises (L : Library Tid) (a : Act Tid) (L' : Library Tid) : Prop where
  ends : ∀ (t : Tid) (ans : Answer) (c : ℕ) (o o' : Instance Tid) (f : Frame), a = .step t ans →
    L.pc t = .inside c → L.objects[c]? = some o → L'.objects[c]? = some o' →
    o.state.freed = false → o.state.pc t = .blocked (.event f .test) → f.i < f.result →
    (o'.state.pc t = .blocked (.event f .stop) ↔
      (o.state.iocb (o.state.events f.i).obj).data = .stop)
  puts : ∀ (t : Tid) (ans : Answer) (c b : ℕ) (o o' : Instance Tid), a = .step t ans →
    L.pc t = .inside c → L.objects[c]? = some o → L'.objects[c]? = some o' →
    o.state.pc t = .close (.prep b) →
      (o'.state.iocb b).data = .stop ∧ L'.fileOf (o'.state.iocb b).aio_fildes = some .stopFile

/-- The step of a thread inside a context, on the state of the context. -/
theorem next_inside {ans : Answer} (hn : L.next (.step t ans) = some L')
    (ht : L.pc t = .inside c) (ho : L.objects[c]? = some o) (ho' : L'.objects[c]? = some o') :
    ArtemisNative.next o.cfg (L.view o) (.step t ans) = some o'.state := by
  have hpc : ∀ {p : LibPc}, L.pc t = p → p = .inside c := fun hp => hp.symm.trans ht
  cases next_moves hn with
  | inside _ _ d o₁ s hd ho₁ hs =>
    obtain rfl := LibPc.inside.inj (hpc hd)
    obtain rfl := Option.some.inj (ho.symm.trans ho₁)
    have hself : (L.moved t d o s).objects[d]? = some (o.moved t s) :=
      List.getElem?_set_self (List.getElem?_eq_some_iff.mp ho).1
    obtain rfl := Option.some.inj (ho'.symm.trans hself)
    exact hs
  | _ => rename_i hp; cases hpc hp

/-- **In a run whose steps do not mix up the sentinel and a request, every step recognises
the sentinel.** -/
theorem sentinel_recognised
    (hr : Reaches next (KeepsStopFile files) (JNI_OnLoad files) L)
    (ha : L.KeepsStopFile files a) (hn : L.next a = some L') : L.Recognises a L' := by
  have hagreed : L.AllAgreed := by
    refine hr.invariant (fun c o ho => ?_) fun _ _ _ h ha hn => h.step ha hn
    cases ho
  have hopen : ∀ L₁ : Library Tid, Reaches next (KeepsStopFile files) (JNI_OnLoad files) L₁ →
      L₁.fileOf files.lowest = some .stopFile := by
    rintro L₁ ⟨ls, hrun⟩
    exact stop_file_open ⟨ls, hrun.mono fun _ _ h => h.spares⟩
  constructor
  · rintro t ans c o o' f rfl ht ho ho' hfree hpc hlt
    have hev : (L.view o).Prepared (o.state.events f.i).obj :=
      .delivered _ ((hagreed c o ho hfree).batch t f.i (by rw [view_pc, hpc]; exact hlt))
    have hiff := (hagreed c o ho hfree).agrees _ hev
    rw [test_ends (s := L.view o) (next_inside hn ht ho ho') hpc hlt]
    exact hiff
  · rintro t ans c b o o' rfl ht ho ho' hpc
    have hb := prep_puts (s := L.view o) (next_inside hn ht ho ho') hpc
    have hfd : L.dumbWriteHandler = files.lowest := ha.prepares t ans c b o rfl ht ho hpc
    rw [hb]
    refine ⟨rfl, ?_⟩
    show L'.fileOf L.dumbWriteHandler = _
    rw [hfd]
    exact hopen L' (hr.step ha hn)

/-! ### Small runs -/

/-- An act without a cleanup that meets the conditions. -/
def calm (files : Slots OpenFile) (L : Library Tid) : Act Tid → Bool
  | .step t _ =>
    match L.pc t with
    | .inside c =>
      match L.objects[c]? with
      | none => true
      | some o => (L.view o).apart (o.state.pc t) && match o.state.pc t with
        | .close (.prep _) => decide (L.dumbWriteHandler = files.lowest)
        | _ => true
    | .shutdownHook => false
    | _ => true
  | .unload _ | .closeFile _ => false
  | _ => true

omit [DecidableEq Tid] in
theorem KeepsStopFile.of_calm (h : L.calm files a = true) : L.KeepsStopFile files a := by
  have hinside : ∀ (t : Tid) (ans : Answer) (c : ℕ) (o : Instance Tid), a = .step t ans →
      L.pc t = .inside c → L.objects[c]? = some o → (L.view o).apart (o.state.pc t) = true ∧
        ∀ b, o.state.pc t = .close (.prep b) → L.dumbWriteHandler = files.lowest := by
    rintro t ans c o rfl ht ho
    simp only [calm, ht, ho, Bool.and_eq_true] at h
    refine ⟨h.1, fun b hb => ?_⟩
    rw [hb] at h
    exact of_decide_eq_true h.2
  refine ⟨fun c o l ho _ hp => ?_, ?_, fun t ans c b o ha ht ho hb => ?_⟩
  · cases hp with
    | step t ans ht => exact (hinside t ans c o rfl ht ho).1
    | closeDumbHandlers _ hc =>
      cases a with
      | step t ans =>
        have hc : L.pc t = .shutdownHook := hc
        simp only [calm, hc] at h
        cases h
      | unload attached => cases h
      | _ => cases hc
    | _ => trivial
  · cases a with
    | closeFile fd => cases h
    | _ => trivial
  · exact (hinside t ans c o ha ht ho).2 b hb

/-- The frame of a poller that has read one event. -/
def firstEvent : Frame := ⟨0, 1, -1, false, 0⟩

/-- A blocked poller has the event of the sentinel at hand. -/
theorem sentinel_recognised_close : ∃ L L' : Library Bool,
    Reaches next (KeepsStopFile stdio) (JNI_OnLoad stdio) L ∧
      (∃ o ∈ L.objects[0]?, o.state.pc true = .blocked (.event firstEvent .test)) ∧
      next L (.step true {}) = some L' ∧ L.Recognises (.step true {}) L' := by
  obtain ⟨L, ⟨ls, hrun⟩, ha, hpc, L', hn, -⟩ := exists_of_exec next
    (fun (L : Library Bool) a => L.calm stdio a = true) (JNI_OnLoad stdio)
    (constructs false 2 ++ [.call true 0 .poll, .step true {}, .call false 0 .close] ++
      acts false 5 ++ [.complete 0 0 0, .step true { events := 1 }])
    (fun L => L.calm stdio (.step true {}) = true ∧
      (∃ o ∈ L.objects[0]?, o.state.pc true = .blocked (.event firstEvent .test)) ∧
      ∃ L' ∈ next L (.step true {}), True) (by decide)
  have hr : Reaches next (KeepsStopFile stdio) (JNI_OnLoad stdio) L :=
    ⟨ls, hrun.mono fun _ _ h => .of_calm h⟩
  exact ⟨L, L', hr, hpc, hn, sentinel_recognised hr (.of_calm ha) hn⟩

/-- The user submits a write on the number of the stop file: its event ends the
poller. -/
theorem sentinel_mistaken : ∃ L L' : Library Bool,
    Reaches next (fun _ _ => True) (JNI_OnLoad stdio) L ∧
      next L (.step true {}) = some L' ∧ ¬L.Recognises (.step true {}) L' := by
  obtain ⟨L, hr, ht, L', hn, o, ho, o', ho', hfree, hpc, hstop, hdata⟩ := exists_of_exec next
    (fun _ _ => True) (JNI_OnLoad stdio)
    (constructs false 2 ++ [.call true 0 .poll, .step true {},
      .call false 0 (.submit ⟨.pwrite, 3, 0, 512, some 7⟩)] ++ acts false 4 ++
      [.complete 0 0 512, .step true { events := 1 }])
    (fun L : Library Bool => L.pc true = .inside 0 ∧ ∃ L' ∈ next L (.step true {}),
      ∃ o ∈ L.objects[0]?, ∃ o' ∈ L'.objects[0]?, o.state.freed = false ∧
        o.state.pc true = .blocked (.event firstEvent .test) ∧
        o'.state.pc true = .blocked (.event firstEvent .stop) ∧
        (o.state.iocb (o.state.events firstEvent.i).obj).data ≠ .stop) (by decide)
  refine ⟨L, L', hr, hn, fun h => hdata ?_⟩
  exact (h.ends true {} 0 o o' firstEvent rfl ht ho ho' hfree hpc (by decide)).mp hstop

/-- A context is constructed after the hook has read the counter: the sentinel is put
on descriptor `0`, which the cleanup has closed. -/
theorem sentinel_misplaced : ∃ L L' : Library Bool,
    Reaches next (fun _ _ => True) (JNI_OnLoad stdio) L ∧
      next L (.step false {}) = some L' ∧ ¬L.Recognises (.step false {}) L' := by
  obtain ⟨L, hr, ht, L', hn, o, ho, o', ho', hpc, hfile⟩ := exists_of_exec next
    (fun _ _ => True) (JNI_OnLoad stdio)
    (.shutdown true :: acts true 2 ++ constructs false 2 ++ acts true 2 ++
      .call false 0 .close :: acts false 3)
    (fun L : Library Bool => L.pc false = .inside 0 ∧ ∃ L' ∈ next L (.step false {}),
      ∃ o ∈ L.objects[0]?, ∃ o' ∈ L'.objects[0]?, o.state.pc false = .close (.prep 0) ∧
        L'.fileOf (o'.state.iocb 0).aio_fildes = none) (by decide)
  refine ⟨L, L', hr, hn, fun h => ?_⟩
  have hput := (h.puts false {} 0 0 o o' rfl ht ho ho' hpc).2
  rw [hfile] at hput
  cases hput

end Library

end ArtemisNative
