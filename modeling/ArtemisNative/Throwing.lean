/-
ArtemisNative/Throwing.lean

Callbacks that throw.

`blockedPoll` calls `onError` and `done` from the loop over a batch, and looks at no
exception: the loop goes on with the exception pending, and JNI leaves open whether a call
into Java is then entered.  The permit of an event is released by the Java method `done`,
behind `SubmitInfo.done`, so that it is lost when that throws.  `poll(callbacks, ..)` calls
`onError` only, and the permits of all events are released by its Java part behind the native
one; there an exception that is pending at the return takes the permits of the whole batch.

The iocbs do not depend on it: they are put back by the native code, in `blockedPoll` before
`done` is called.

Event by event, what has been said is compared with what was due (`Paying`), and a call or a
permit that is left out is not made up for later (`Paying.step`).  So all events of a batch are
settled exactly if no step leaves anything out (`batch_settled_iff`).
-/
import ArtemisNative.Settlement

namespace ArtemisNative

open Transition Dues

variable {Tid : Type} [DecidableEq Tid] {cfg : Config} {s s' x x' : State Tid} {p : Tid}
variable {ans : Answer} {l : Label Tid} {ls : List (Label Tid)} {st : Stage}
variable {batch : List IoEvent} {obs due due' : List Obs} {good : Prop}

/-! ### One step of the batch -/

/-- The locals of the thread within a batch of `n` events. -/
def Pc.InLoop (n : ℕ) : Pc → Prop
  | .blocked (.event f st) => f.result = n ∧ (st ≠ .test → f.i < n)
  | .blocked (.getEvents _) => True
  | .poll (.event f st) => f.result = n ∧ (st ≠ .onError → f.i < n) ∧ (f.pending = true → 0 < n)
  | .poll (.release m _ pending) => m = n ∧ (pending = true → 0 < n)
  | _ => False

/-- Thread `p` has read the batch and gone on from state `s` to state `x`, and has settled no
more than was due. -/
structure Paying (cfg : Config) (s : State Tid) (p : Tid) (batch : List IoEvent)
    (x : State Tid) : Prop where
  holding : Holding s p batch x
  consistent : Consistent cfg x
  log : s.log <+: x.log
  inLoop : (x.pc p).InLoop batch.length
  behind : Behind (paid s x) fun i : Entry s batch => dues cfg i (x.pc p)

/-- What stays the same for a batch. -/
structure Fixed (s : State Tid) (batch : List IoEvent) : Prop where
  known : ∀ e ∈ batch, e.op < s.accepted.length
  nodup : (batch.map (·.op)).Nodup

omit [DecidableEq Tid] in
/-- The event at hand is an entry of the batch, and its request is the one that its iocb was
prepared for. -/
theorem Holding.entry (h : Holding s p batch x) (hfix : Fixed s batch) {n : ℕ}
    (hp : (x.pc p).inBatch = true) (hlt : n < batch.length) :
    ∃ i : Entry s batch, i.index = n ∧ i.event = x.events n ∧
      x.accepted[(x.events n).op]? = some i.origin := by
  have he : batch[n]? = some batch[n] := List.getElem?_eq_getElem hlt
  have hevent := h.buffer hp n _ he
  have hacc := List.getElem?_eq_getElem (hfix.known _ (List.getElem_mem hlt))
  refine ⟨⟨n, batch[n], _, he, hacc⟩, rfl, hevent.symm, ?_⟩
  obtain ⟨more, hmore⟩ := h.grown
  rw [hevent, ← hmore, List.getElem?_append_left (hfix.known _ (List.getElem_mem hlt)), hacc]

/-- The step from `x` to `x'` pays no more than falls due for the events of the batch, and as
much exactly if it is `good`. -/
def Balances (cfg : Config) (s : State Tid) (p : Tid) (batch : List IoEvent) (x x' : State Tid)
    (good : Prop) : Prop :=
  Behind (paid s x') (fun i : Entry s batch => dues cfg i (x'.pc p)) ∧
    ((paid s x' = fun i : Entry s batch => dues cfg i (x'.pc p)) ↔
      (paid s x = fun i : Entry s batch => dues cfg i (x.pc p)) ∧ good)

namespace Paying

omit [DecidableEq Tid] in
/-- What a step says is paid on top. -/
theorem paid_append (hlog : s.log <+: x.log) (hobs : x'.log = x.log ++ obs)
    (i : Entry s batch) : paid s x' i = paid s x i ++ about Obs.billed? i.event.op obs := by
  rw [paid, paid, hobs, List.drop_append_of_le_length hlog.length_le, about_append]

omit [DecidableEq Tid] in
/-- A step that is beside the matter. -/
theorem quiet (h : Paying cfg s p batch x) (hobs : x'.log = x.log ++ obs)
    (haside : ∀ ob ∈ obs, ob.billed? = none)
    (hdues : ∀ i : Entry s batch, dues cfg i (x'.pc p) = dues cfg i (x.pc p)) (hgood : good) :
    Balances cfg s p batch x x' good := by
  have hpaid : paid s x' = (paid s x : Entry s batch → List Obs) := by
    funext i
    rw [paid_append h.log hobs, about_eq_nil, List.append_nil]
    intro ob hob
    rw [haside ob hob]
    exact nofun
  rw [Balances, hpaid, funext hdues]
  exact ⟨h.behind, (and_iff_left hgood).symm⟩

omit [DecidableEq Tid] in
theorem silent (h : Paying cfg s p batch x) (hlog : x'.log = x.log)
    (hdues : ∀ i : Entry s batch, dues cfg i (x'.pc p) = dues cfg i (x.pc p)) :
    Balances cfg s p batch x x' True :=
  h.quiet (hlog.trans (List.append_nil _).symm) (List.forall_mem_nil _) hdues trivial

omit [DecidableEq Tid] in
/-- A step for one event of the batch. -/
theorem bill (h : Paying cfg s p batch x) (hfix : Fixed s batch) (i₀ : Entry s batch)
    (hobs : x'.log = x.log ++ obs) (hpays : Pays i₀.event.op obs due due' good)
    (hdue : dues cfg i₀ (x.pc p) = due) (hdue' : dues cfg i₀ (x'.pc p) = due')
    (hothers : ∀ i : Entry s batch, i.index ≠ i₀.index →
      dues cfg i (x'.pc p) = dues cfg i (x.pc p)) : Balances cfg s p batch x x' good := by
  obtain ⟨hsaid, δ, hδ, hsub, hgood⟩ := hpays
  have hstep : Dues.Step (paid s x) (fun i : Entry s batch => dues cfg i (x.pc p)) (paid s x')
      (fun i => dues cfg i (x'.pc p)) i₀ (about Obs.billed? i₀.event.op obs) δ := by
    refine ⟨paid_append h.log hobs i₀, ?_, fun i hi => ?_, fun i hi => ?_, hsub⟩
    · show dues cfg i₀ (x'.pc p) = dues cfg i₀ (x.pc p) ++ δ
      rw [hdue, hdue', hδ]
    · rw [paid_append h.log hobs, about_eq_nil, List.append_nil]
      intro ob hob hop
      -- the observation is about another request
      rcases hsaid ob hob with hnone | hsome
      · rw [hnone] at hop
        cases hop
      · exact hi (Entry.eq_of_op hfix.nodup (Option.some.inj (hop.symm.trans hsome)))
    · exact hothers i fun he => hi (Entry.eq_of_index he)
  refine ⟨h.behind.step hstep, ?_⟩
  rw [h.behind.eq_iff hstep, hgood]

/-! ### blockedPoll -/

variable {f f' : Frame} {st' : Stage} {i : Entry s batch}

omit [DecidableEq Tid] in
theorem dues_self (hi : i.index = f.i) :
    dues cfg i (.blocked (.event f st)) = st.part cfg i.origin i.event := by
  rw [dues, hi, inTurn_self]

omit [DecidableEq Tid] in
theorem dues_of_ne (hf : f'.i = f.i) (hi : i.index ≠ f.i) :
    dues cfg i (.blocked (.event f' st')) = dues cfg i (.blocked (.event f st)) := by
  rw [dues, dues, hf]
  exact inTurn_of_ne hi

/-- The head of the loop. -/
theorem test (h : Paying cfg s p batch x) (hpc : x.pc p = .blocked (.event f .test))
    (hn : eventStep cfg x p ans f .test = some x') :
    (x'.pc p).InLoop batch.length ∧ Balances cfg s p batch x x' True := by
  have hin := h.inLoop
  rw [hpc] at hin
  obtain ⟨hres, -⟩ := hin
  simp only [eventStep] at hn
  split at hn
  · next hlt =>
    have hlt : f.i < batch.length := hres ▸ hlt
    split at hn <;> obtain rfl := Option.some.inj hn
    all_goals
      refine ⟨?_, h.silent rfl fun i => ?_⟩
      · rw [State.pc_goto]
        exact ⟨hres, fun _ => hlt⟩
      · rw [State.pc_goto, hpc]
        rfl
  · next hle =>
    obtain rfl := Option.some.inj hn
    refine ⟨?_, h.silent rfl fun i => ?_⟩
    · rw [State.pc_goto]
      trivial
    · -- all events of the batch are due in full
      rw [State.pc_goto, hpc]
      refine (inTurn_of_lt ?_).symm
      have hi := i.lt
      omega

/-- The event is done with, and the next one comes. -/
theorem next_event (h : Paying cfg s p batch x) (hpc : x.pc p = .blocked (.event f st))
    (hn : eventStep cfg x p ans f st = some x')
    (hlast : st = .warn ∨ ∃ obj, st = .deleteRef obj) :
    (x'.pc p).InLoop batch.length ∧ Balances cfg s p batch x x' True := by
  have hin := h.inLoop
  rw [hpc] at hin
  obtain ⟨obs, hobs, haside, hpc'⟩ : ∃ obs, x'.log = x.log ++ obs ∧
      (∀ ob ∈ obs, ob.billed? = none) ∧
        x'.pc p = .blocked (.event { f with i := f.i + 1 } .test) := by
    rcases hlast with rfl | ⟨obj, rfl⟩ <;> obtain rfl := Option.some.inj hn
    · refine ⟨[.warned (x.events f.i).op], rfl, fun ob hob => ?_, State.pc_goto ..⟩
      rw [List.mem_singleton.mp hob]
      rfl
    · exact ⟨[], (List.append_nil _).symm, nofun, State.pc_goto ..⟩
  refine ⟨?_, h.quiet hobs haside (fun i => ?_) trivial⟩
  · rw [hpc']
    exact ⟨hin.1, fun h => absurd rfl h⟩
  · rw [hpc', hpc]
    refine inTurn_succ.trans ?_
    rcases hlast with rfl | ⟨obj, rfl⟩ <;> rfl

theorem event (h : Paying cfg s p batch x) (hfix : Fixed s batch)
    (hpc : x.pc p = .blocked (.event f st)) (hst : st ≠ .stop)
    (hn : eventStep cfg x p ans f st = some x') :
    (x'.pc p).InLoop batch.length ∧
      Balances cfg s p batch x x' (st.Harmless cfg x f ans) := by
  by_cases htest : st = .test
  · subst htest
    exact h.test hpc hn
  by_cases hlast : st = .warn ∨ ∃ obj, st = .deleteRef obj
  · obtain ⟨hin, hbal⟩ := h.next_event hpc hn hlast
    rcases hlast with rfl | ⟨obj, rfl⟩ <;> exact ⟨hin, hbal⟩
  obtain ⟨hwarn, hdel⟩ := not_or.mp hlast
  have hin := h.inLoop
  rw [hpc] at hin
  have hlt := hin.2 htest
  obtain ⟨i, hindex, hevent, hacc⟩ := h.holding.entry hfix (by rw [hpc]; rfl) hlt
  -- the request of the event is the one that its iocb was prepared for
  have hdata : st = .onError ∨ st = .take →
      i.origin.Data x.refs (x.iocb (x.events f.i).obj).data := by
    intro hstage
    have hview : (x.view p).batch =
        x.events f.i :: eventsFrom x.events (f.i + 1) f.result := by
      rw [State.view, hpc]
      rcases hstage with rfl | rfl <;> rfl
    obtain ⟨g, hg, hfit⟩ := h.consistent.matched.at_hand hview
    obtain rfl := Option.some.inj (hg.symm.trans hacc)
    exact hfit.1
  have hobj : ∀ obj, st = .done obj → x.refs.deref obj = i.origin.callback := by
    rintro obj rfl
    obtain ⟨g, hg, hdata⟩ := h.consistent.matched.hand p (x.events f.i).op obj (by
      rw [State.view, hpc]
      rfl)
    obtain rfl := Option.some.inj (hg.symm.trans hacc)
    exact hdata.deref
  obtain ⟨f', st', obs, hpc', hi', hres', hobs, hpays⟩ := eventStep_pays hevent hdata hobj hn
    ⟨htest, hst, fun obj he => hdel ⟨obj, he⟩, hwarn⟩
  refine ⟨?_, h.bill hfix i hobs hpays ?_ ?_ fun j hj => ?_⟩
  · rw [hpc']
    exact ⟨hres'.trans hin.1, fun _ => hi' ▸ hlt⟩
  · rw [hpc]
    exact dues_self hindex
  · rw [hpc']
    exact dues_self (hindex.trans hi'.symm)
  · rw [hpc, hpc']
    exact dues_of_ne hi' (hindex ▸ hj)

/-! ### poll -/

variable {fp fp' : PollFrame} {sp sp' : PollStage}

omit [DecidableEq Tid] in
theorem pollDues_self (hi : i.index = fp.i) :
    dues cfg i (.poll (.event fp sp)) = sp.part i.origin i.event i.index := by
  rw [dues, hi, inTurn_self]

omit [DecidableEq Tid] in
theorem pollDues_of_ne (hf : fp'.i = fp.i) (hi : i.index ≠ fp.i) :
    dues cfg i (.poll (.event fp' sp')) = dues cfg i (.poll (.event fp sp)) := by
  rw [dues, dues, hf]
  exact inTurn_of_ne hi

/-- The end of the loop. -/
theorem pollEnd (h : Paying cfg s p batch x) (hpc : x.pc p = .poll (.event fp .onError))
    (hle : fp.result ≤ fp.i) (hn : pollStep cfg x p ans (.event fp .onError) = some x') :
    (x'.pc p).InLoop batch.length ∧ (x'.pc p).pollPending = fp.pending ∧
      Balances cfg s p batch x x' True := by
  have hin := h.inLoop
  rw [hpc] at hin
  simp only [pollStep, if_neg (Nat.not_lt.mpr hle)] at hn
  obtain rfl := Option.some.inj hn
  refine ⟨?_, ?_, h.silent rfl fun i => ?_⟩
  · rw [State.pc_goto]
    exact ⟨congrArg _ hin.1, hin.2.2⟩
  · rw [State.pc_goto]
    rfl
  · rw [State.pc_goto, hpc]
    refine (inTurn_of_lt ?_).symm
    have hi := i.lt
    have hres := hin.1
    omega

/-- The iocb is put back, and the next event comes. -/
theorem pollPut (h : Paying cfg s p batch x) (hfix : Fixed s batch)
    (hpc : x.pc p = .poll (.event fp .put))
    (hn : pollStep cfg x p ans (.event fp .put) = some x') :
    (x'.pc p).InLoop batch.length ∧ (x'.pc p).pollPending = fp.pending ∧
      Balances cfg s p batch x x' True := by
  have hin := h.inLoop
  rw [hpc] at hin
  have hlt := hin.2.1 nofun
  obtain ⟨i, hindex, hevent, -⟩ := h.holding.entry hfix (by rw [hpc]; rfl) hlt
  obtain rfl := Option.some.inj hn
  have hpays : Pays i.event.op [.putBack (x.events fp.i).op]
      (PollStage.put.part i.origin i.event i.index) (pollSettlement i.origin i.event i.index)
      True := by
    rw [← hevent]
    exact .said rfl trivial
  refine ⟨?_, ?_, h.bill hfix i rfl hpays ?_ ?_ fun j hj => ?_⟩
  · rw [State.pc_goto]
    exact ⟨hin.1, fun h => absurd rfl h, hin.2.2⟩
  · rw [State.pc_goto]
    rfl
  · rw [hpc]
    exact pollDues_self hindex
  · rw [State.pc_goto]
    refine inTurn_of_lt ?_
    show i.index < fp.i + 1
    omega
  · rw [State.pc_goto, hpc]
    refine inTurn_succ.trans ?_
    exact inTurn_of_ne (hindex ▸ hj)

theorem poll (h : Paying cfg s p batch x) (hfix : Fixed s batch)
    (hpc : x.pc p = .poll (.event fp sp)) (hn : pollStep cfg x p ans (.event fp sp) = some x') :
    (x'.pc p).InLoop batch.length ∧ ∃ entered, Balances cfg s p batch x x' entered ∧
      (entered ∧ (cfg.useSemaphore = true → (x'.pc p).pollPending = false) ↔
        (cfg.useSemaphore = true → fp.pending = false) ∧ sp.Harmless cfg x fp ans) := by
  have hin := h.inLoop
  rw [hpc] at hin
  by_cases hend : sp = .onError ∧ fp.result ≤ fp.i
  · obtain ⟨rfl, hle⟩ := hend
    obtain ⟨hin', hpend, hbal⟩ := h.pollEnd hpc hle hn
    refine ⟨hin', True, hbal, ?_⟩
    rw [hpend, true_and, and_iff_left]
    exact fun hlt => absurd hlt (Nat.not_lt.mpr hle)
  by_cases hput : sp = .put
  · subst hput
    obtain ⟨hin', hpend, hbal⟩ := h.pollPut hfix hpc hn
    refine ⟨hin', True, hbal, ?_⟩
    rw [hpend, true_and, and_iff_left]
    trivial
  have hlt : fp.i < batch.length := by
    by_cases hhead : sp = .onError
    · have hle := not_and.mp hend hhead
      have hres := hin.1
      omega
    · exact hin.2.1 hhead
  obtain ⟨i, hindex, hevent, hacc⟩ := h.holding.entry hfix (by rw [hpc]; rfl) hlt
  have hdata : sp = .onError ∨ sp = .store →
      i.origin.Data x.refs (x.iocb (x.events fp.i).obj).data := by
    intro hstage
    have hview : (x.view p).batch =
        x.events fp.i :: eventsFrom x.events (fp.i + 1) fp.result := by
      rw [State.view, hpc]
      rcases hstage with rfl | rfl
      · exact eventsFrom_of_lt (hin.1.symm ▸ hlt)
      · rfl
    obtain ⟨g, hg, hfit⟩ := h.consistent.matched.at_hand hview
    obtain rfl := Option.some.inj (hg.symm.trans hacc)
    exact hfit.1
  obtain ⟨f', st', obs, entered, hpc', hi', hres', hobs, hpays, hiff⟩ :=
    pollStep_pays hevent hindex (hin.1.symm ▸ hlt) hdata hn hput
  refine ⟨?_, entered, h.bill hfix i hobs hpays ?_ ?_ fun j hj => ?_, ?_⟩
  · rw [hpc']
    exact ⟨hres'.trans hin.1, fun _ => hi' ▸ hlt, fun _ => Nat.zero_lt_of_lt hlt⟩
  · rw [hpc]
    exact pollDues_self hindex
  · rw [hpc']
    exact pollDues_self (hindex.trans hi'.symm)
  · rw [hpc, hpc']
    exact pollDues_of_ne hi' (hindex ▸ hj)
  · rw [hpc']
    exact hiff

/-! ### A run through the batch -/

/-- A step of the thread. -/
theorem thread (h : Paying cfg s p batch x) (hfix : Fixed s batch)
    (hw : (x.pc p).working = true) (hn : next cfg x (.step p ans) = some x') :
    (x'.pc p).InLoop batch.length ∧ ∃ entered, Balances cfg s p batch x x' entered ∧
      (entered ∧ (cfg.useSemaphore = true → (x'.pc p).pollPending = false) ↔
        (cfg.useSemaphore = true → (x.pc p).pollPending = false) ∧
          (x.pc p).Harmless cfg x ans) := by
  rcases Pc.working_cases hw with ⟨f, st, hpc, hst⟩ | ⟨f, st, hpc⟩
  · have hstep : eventStep cfg x p ans f st = some x' := by
      rw [← hn, next, hpc]
      rfl
    obtain ⟨hin, hbal⟩ := h.event hfix hpc hst hstep
    have hpend : (x'.pc p).pollPending = false := by
      cases eventStep_moves hstep <;> rw [State.pc_goto] <;> rfl
    refine ⟨hin, _, hbal, ?_⟩
    rw [hpend, hpc, and_iff_left fun _ => rfl, and_iff_right]
    · rfl
    · exact fun _ => rfl
  · have hstep : pollStep cfg x p ans (.event f st) = some x' := by
      rw [← hn, next, hpc]
      rfl
    obtain ⟨hin, entered, hbal, hiff⟩ := h.poll hfix hpc hstep
    refine ⟨hin, entered, hbal, ?_⟩
    rw [hpc]
    exact hiff

/-- **Nothing that a step leaves out is made up for later.** -/
theorem step (h : Paying cfg s p batch x) (hfix : Fixed s batch) (hl : Working p x l)
    (hn : next cfg x l = some x') :
    Paying cfg s p batch x' ∧
      (Even cfg s p batch x' ↔ Even cfg s p batch x ∧ Harmless cfg p x l) := by
  have hhold := h.holding.step hl.within hn
  have hcons := h.consistent.step hl.1 hn
  have hlog : s.log <+: x'.log := h.log.trans (next_appends hn).2
  by_cases hp : l.tid? = some p
  · obtain ⟨ans, rfl⟩ : ∃ ans, l = .step p ans := by
      cases l with
      | step t ans =>
        obtain rfl := Option.some.inj hp
        exact ⟨ans, rfl⟩
      | call t m =>
        obtain rfl := Option.some.inj hp
        have hw := hl.2
        simp only [next] at hn
        split at hn
        · next o hpc =>
          rw [hpc] at hw
          cases hw
        · cases hn
      | _ => cases hp
    obtain ⟨hin, entered, hbal, hiff⟩ := h.thread hfix hl.2 hn
    refine ⟨⟨hhold, hcons, hlog, hin, hbal.1⟩, ?_⟩
    rw [Even, hbal.2, and_assoc, hiff, Even, and_assoc]
    exact and_congr_right fun _ => and_congr_right fun _ => ⟨fun hgood _ => hgood, fun hgood =>
      hgood rfl⟩
  · obtain ⟨obs, hobs, haside⟩ := h.holding.aside hl.within hn hp
    have hpc := next_pc_of_ne hn hp
    have hbal : Balances cfg s p batch x x' True :=
      h.quiet hobs (fun ob hob => by
        have hob := haside ob hob
        cases ob <;> first | rfl | cases hob) (fun i => by rw [hpc]) trivial
    refine ⟨⟨hhold, hcons, hlog, hpc ▸ h.inLoop, hbal.1⟩, ?_⟩
    have hharmless : Harmless cfg p x l := by
      cases l with
      | step t ans => exact fun ht => absurd (congrArg some ht) hp
      | _ => trivial
    rw [Even, hbal.2, hpc, and_true, Even, and_iff_left hharmless]

theorem even_iff (h : Paying cfg s p batch s') (hfix : Fixed s batch)
    (hr : Run (next cfg) (Working p) s' ls x) : Paying cfg s p batch x ∧
      (Even cfg s p batch x ↔ Even cfg s p batch s' ∧
        Run (next cfg) (fun x l => Working p x l ∧ Harmless cfg p x l) s' ls x) := by
  have hinv : ∀ x l x', Paying cfg s p batch x → Working p x l → next cfg x l = some x' →
      Paying cfg s p batch x' := fun _ _ _ hx hl hn => (hx.step hfix hl hn).1
  refine ⟨hr.invariant h hinv, hr.iff_of_step h hinv ?_⟩
  exact fun _ _ _ hx hl hn => (hx.step hfix hl hn).2

end Paying

/-! ### A settled batch -/

/-- The events of the batch that thread `p` has gone through are settled: in `blockedPoll` those
before the one it takes for the sentinel; and the return from `poll(callbacks, ..)` releases a
permit for each. -/
def BatchSettled (cfg : Config) (s : State Tid) (p : Tid) (batch : List IoEvent)
    (x : State Tid) : Prop :=
  match x.pc p with
  | .blocked (.event f .stop) =>
    ∀ i : Entry s batch, i.index < f.i → paid s x i = blockedSettlement cfg i.origin i.event
  | .blocked _ => ∀ i : Entry s batch, paid s x i = blockedSettlement cfg i.origin i.event
  | _ =>
    (∀ i : Entry s batch, paid s x i = pollSettlement i.origin i.event i.index) ∧
      ∀ y ans z, y.pc p = x.pc p → next cfg y (.step p ans) = some z →
        z.ioSpace = y.ioSpace + if cfg.useSemaphore then batch.length else 0

/-- The return from `poll(callbacks, ..)` releases the permits unless an exception is pending. -/
theorem release_iff {m : ℤ} {callbacks : List (Option ℕ)} {pending : Bool} {n : ℕ}
    (hpc : x.pc p = .poll (.release m callbacks pending)) (hm : m = n)
    (hpos : pending = true → 0 < n) :
    (∀ (y : State Tid) ans z, y.pc p = x.pc p → next cfg y (.step p ans) = some z →
      z.ioSpace = y.ioSpace + if cfg.useSemaphore then n else 0) ↔
        (cfg.useSemaphore = true → pending = false) := by
  have hnext : ∀ (y : State Tid) ans, y.pc p = x.pc p →
      next cfg y (.step p ans) = pollStep cfg y p ans (.release m callbacks pending) := by
    intro y ans hy
    rw [next, hy, hpc]
    rfl
  cases pending with
  | true =>
    have hthrew : ∀ (y : State Tid) ans, y.pc p = x.pc p →
        next cfg y (.step p ans) = some (y.goto p (.idle (.threw .callback))) :=
      fun y ans hy => (hnext y ans hy).trans rfl
    constructor
    · intro hall hsem
      have hspace := hall x {} _ rfl (hthrew x {} rfl)
      have hn := hpos rfl
      rw [if_pos hsem] at hspace
      have hsame : (x.goto p (.idle (.threw .callback))).ioSpace = x.ioSpace := rfl
      omega
    · intro hsem y ans z hy hn
      obtain rfl := Option.some.inj ((hthrew y ans hy).symm.trans hn)
      rw [if_neg fun h => by cases hsem h]
      rfl
  | false =>
    refine iff_of_true (fun y ans z hy hn => ?_) fun _ => rfl
    rw [hnext y ans hy] at hn
    simp only [pollStep, Bool.false_eq_true, if_false] at hn
    split at hn
    · next hcond =>
      obtain rfl := Option.some.inj hn
      rw [if_pos hcond.1, hm]
      rfl
    · next hcond =>
      obtain rfl := Option.some.inj hn
      show y.ioSpace = _
      split
      · next hsem =>
        have hzero : ¬0 < m := fun h => hcond ⟨hsem, h⟩
        omega
      · rfl

/-- Behind the loop, the events are settled if all that was due has been paid. -/
theorem Paying.settled_iff (h : Paying cfg s p batch x) (hend : (x.pc p).working = false) :
    BatchSettled cfg s p batch x ↔ Even cfg s p batch x := by
  have hin := h.inLoop
  have hbehind := h.behind
  rw [BatchSettled, Even, funext_iff]
  rcases hpc : x.pc p with o | q | q | q | q <;> rw [hpc] at hin hend hbehind
  · cases hin
  · cases hin
  · cases q with
    | getEvents f => exact (and_iff_left fun _ => rfl).symm
    | event f st =>
      cases st with
      | stop =>
        refine Iff.trans ?_ (and_iff_left fun _ => rfl).symm
        refine ⟨fun hall i => ?_, fun hall i hlt => (hall i).trans (inTurn_of_lt hlt)⟩
        by_cases hlt : i.index < f.i
        · exact (hall i hlt).trans (inTurn_of_lt hlt).symm
        · -- nothing is due, and so nothing has been paid
          have hnone : dues cfg i (.blocked (.event f .stop)) = [] := by
            rcases Nat.eq_or_lt_of_not_lt hlt with heq | hgt
            · exact Paying.dues_self heq
            · exact inTurn_of_gt hgt
          rw [hnone]
          exact List.sublist_nil.mp (hnone ▸ hbehind i)
      | _ => cases hend
    | _ => cases hin
  · cases q with
    | event f st => cases hend
    | release m callbacks pending =>
      refine and_congr Iff.rfl (Iff.trans ?_ (release_iff hpc hin.1 hin.2))
      rw [hpc]
    | _ => cases hin
  · cases hin

/-- A thread reads a batch, in `blockedPoll` or in `poll(callbacks, ..)`. -/
theorem Paying.read (h : Consistent cfg s) (hpolls : (s.pc p).polls = true)
    (hat : (s.pc p).atRead = true) (hpos : 0 ≤ ans.events) (hl : Orderly s (.step p ans))
    (hn : next cfg s (.step p ans) = some x) :
    Fixed x (s.ring.take ans.events.toNat) ∧
      Paying cfg x p (s.ring.take ans.events.toNat) x ∧
      Even cfg x p (s.ring.take ans.events.toNat) x := by
  have hcons := h.step hl hn
  obtain ⟨obs, hring, hev, hacc, hwork⟩ : ∃ obs, ans.events.toNat ≤ s.ring.length ∧
      x.events = (s.getEvents ans.events.toNat obs).events ∧ x.accepted = s.accepted ∧
        ((∃ f, f.i = 0 ∧ f.result = ans.events.toNat ∧ x.pc p = .blocked (.event f .test)) ∨
          ∃ f, f.i = 0 ∧ f.result = ans.events.toNat ∧ f.pending = false ∧
            x.pc p = .poll (.event f .onError)) := by
    rcases hpc : s.pc p with o | q | q | q | q <;> rw [hpc] at hpolls hat
    · cases hpolls
    · cases hpolls
    · cases q with
      | getEvents f =>
        obtain ⟨hring, rfl⟩ := blocked_read hpc hpos hn
        exact ⟨.reaped, hring, rfl, rfl, .inl ⟨_, rfl, rfl, State.pc_goto ..⟩⟩
      | _ => cases hat
    · cases q with
      | getEvents callbacks min max =>
        obtain ⟨hring, rfl⟩ := poll_read hpc hpos hn
        exact ⟨.polled, hring, rfl, rfl, .inr ⟨_, rfl, rfl, rfl, State.pc_goto ..⟩⟩
      | _ => cases hat
    · cases hpolls
  have hfix : Fixed x (s.ring.take ans.events.toNat) := by
    refine ⟨?_, h.numbered.nodup_take _⟩
    rw [hacc]
    exact h.known _
  have hlen : (s.ring.take ans.events.toNat).length = ans.events.toNat := by
    rw [List.length_take]
    omega
  -- nothing is due, and nothing has been paid
  have hpaid : paid x x = fun _ : Entry x (s.ring.take ans.events.toNat) => [] := by
    funext i
    rw [paid, List.drop_length]
    rfl
  have hdues : ∀ i : Entry x (s.ring.take ans.events.toNat), dues cfg i (x.pc p) = [] := by
    intro i
    rcases hwork with ⟨f, hf, -, hpc⟩ | ⟨f, hf, -, -, hpc⟩ <;> rw [hpc] <;>
      rcases Nat.eq_zero_or_pos i.index with hzero | hi
    · exact Paying.dues_self (hzero.trans hf.symm)
    · exact inTurn_of_gt (hf ▸ hi)
    · exact Paying.pollDues_self (hzero.trans hf.symm)
    · exact inTurn_of_gt (hf ▸ hi)
  refine ⟨hfix, ⟨.read obs hl.2 hat hn hev, hcons, List.prefix_rfl, ?_, fun i => ?_⟩, ?_, fun _ => ?_⟩
  · rcases hwork with ⟨f, -, hres, hpc⟩ | ⟨f, -, hres, hpend, hpc⟩ <;> rw [hpc, hlen]
    · exact ⟨hres, fun h => absurd rfl h⟩
    · refine ⟨hres, fun h => absurd rfl h, fun h => ?_⟩
      rw [hpend] at h
      cases h
  · rw [hpaid]
    exact List.nil_sublist _
  · rw [hpaid]
    exact (funext hdues).symm
  · rcases hwork with ⟨f, -, -, hpc⟩ | ⟨f, -, -, hpend, hpc⟩ <;> rw [hpc]
    · rfl
    · exact hpend

/-- **What a throwing callback costs.**  A thread reads a batch, in `blockedPoll` or in
`poll(callbacks, ..)`, and goes through it up to state `x`, whatever else happens and whatever
the callbacks do.  All events of the batch are settled (each told to its own callback, its iocb
put back once, its permit released once) if and only if no step of the thread has left
something out. -/
theorem batch_settled_iff {env : Process} {s₀ : State Tid} (hq : 0 < cfg.queueSize)
    (hs : Reaches (next cfg) Orderly (.initial cfg env) s₀) (hpolls : (s₀.pc p).polls = true)
    (hat : (s₀.pc p).atRead = true) (hpos : 0 ≤ ans.events) (hl : Orderly s₀ (.step p ans))
    (hn : next cfg s₀ (.step p ans) = some s) (hr : Run (next cfg) (Working p) s ls x)
    (hend : (x.pc p).working = false) :
    BatchSettled cfg s p (s₀.ring.take ans.events.toNat) x ↔
      Run (next cfg) (fun x l => Working p x l ∧ Harmless cfg p x l) s ls x := by
  obtain ⟨ls₀, hr₀⟩ := hs
  obtain ⟨hfix, hpaying, heven⟩ :=
    Paying.read ((Consistent.initial hq env).run hr₀) hpolls hat hpos hl hn
  obtain ⟨hx, hiff⟩ := hpaying.even_iff hfix hr
  rw [hx.settled_iff hend, hiff]
  exact and_iff_right heven

/-- Two writes, of which the first fails. -/
def failedWrite : List (Label Bool) :=
  submits true ⟨.pwrite, 5, 0, 512, some 1⟩ ++ submits true ⟨.pwrite, 5, 512, 512, some 2⟩ ++
    [.complete 0 (-5), .complete 0 512]

/-- `n` steps of the poller, one in which a callback throws, and `m` more. -/
def throwsAfter (n m : ℕ) : List (Label Bool) :=
  steps false n ++ [.step false { throws := true }] ++ steps false m

/-- `onError` throws, and nobody pays for it. -/
theorem batch_settled_onError : ∃ s₀ s x : State Bool,
    Reaches (next ⟨2, true, true⟩) Orderly (.sample ⟨2, true, true⟩) s₀ ∧
      next ⟨2, true, true⟩ s₀ (.step false { events := 2 }) = some s ∧
      Run (next ⟨2, true, true⟩) (Working false) s
        (throwsAfter 2 16) x ∧
      x.pc false = .blocked (.getEvents ⟨2, 2, 5, true, 1⟩) ∧
      BatchSettled ⟨2, true, true⟩ s false (s₀.ring.take 2) x := by
  obtain ⟨s₀, hs, hpc, hl, hnext⟩ := exists_of_exec (next ⟨2, true, true⟩) Orderly
    (.sample ⟨2, true, true⟩) (failedWrite ++ [.call false .poll, .step false {}])
    (fun s₀ => s₀.pc false = .blocked (.getEvents ⟨0, 0, -1, false, 0⟩) ∧
      Orderly s₀ (.step false { events := 2 }) ∧
      ((next ⟨2, true, true⟩ s₀ (.step false { events := 2 })).any fun s =>
        (exec (next ⟨2, true, true⟩)
          (fun x l => Working false x l ∧ Harmless ⟨2, true, true⟩ false x l) s
          (throwsAfter 2 16)).any fun x =>
            decide (x.pc false = .blocked (.getEvents ⟨2, 2, 5, true, 1⟩))) = true) (by decide)
  obtain ⟨s, hn, hnext⟩ := (Option.any_eq_true _ _).mp hnext
  obtain ⟨x, hr, hx⟩ := exists_run_of_exec _ _ s _ _ hnext
  have hrun := hr.mono fun _ _ h => h.1
  exact ⟨s₀, s, x, hs, hn, hrun, hx, (batch_settled_iff (by decide) hs (by rw [hpc]; rfl)
    (by rw [hpc]; rfl) (by decide) hl hn hrun (by rw [hx]; rfl)).mpr hr⟩

/-- `SubmitInfo.done` throws in `blockedPoll`, and the permit of its event is lost; `onError`
throws in `poll(callbacks, ..)`, and the permits of both events are lost. -/
theorem not_batch_settled :
    (∃ s₀ s x : State Bool, Reaches (next ⟨2, true, true⟩) Orderly (.sample ⟨2, true, true⟩) s₀ ∧
      s₀.pc false = .blocked (.getEvents ⟨0, 0, -1, false, 0⟩) ∧
      next ⟨2, true, true⟩ s₀ (.step false { events := 1 }) = some s ∧
      Run (next ⟨2, true, true⟩) (Working false) s
        (throwsAfter 6 2) x ∧
      x.pc false = .blocked (.getEvents ⟨1, 1, 5, true, 0⟩) ∧
      ¬BatchSettled ⟨2, true, true⟩ s false (s₀.ring.take 1) x) ∧
    ∃ s₀ s x : State Bool, Reaches (next ⟨2, true, true⟩) Orderly (.sample ⟨2, true, true⟩) s₀ ∧
      s₀.pc false = .poll (.getEvents [none, none] 1 2) ∧
      next ⟨2, true, true⟩ s₀ (.step false { events := 2 }) = some s ∧
      Run (next ⟨2, true, true⟩) (Working false) s
        (throwsAfter 0 8) x ∧
      x.pc false = .poll (.release 2 [some 1, some 2] true) ∧
      ¬BatchSettled ⟨2, true, true⟩ s false (s₀.ring.take 2) x := by
  constructor
  · obtain ⟨s₀, hs, hpc, hring, hnext⟩ := exists_of_exec (next ⟨2, true, true⟩) Orderly
      (.sample ⟨2, true, true⟩)
      (submits true ⟨.pwrite, 5, 0, 512, some 1⟩ ++
        [.complete 0 512, .call false .poll, .step false {}])
      (fun s₀ => s₀.pc false = .blocked (.getEvents ⟨0, 0, -1, false, 0⟩) ∧
        (s₀.ring.take 1)[0]? = some (⟨0, 512, 0⟩ : IoEvent) ∧
        ((next ⟨2, true, true⟩ s₀ (.step false { events := 1 })).any fun s =>
          decide (s.accepted[0]? = some (Origin.user ⟨.pwrite, 5, 0, 512, some 1⟩)) &&
          (exec (next ⟨2, true, true⟩) (Working false) s
            (throwsAfter 6 2)).any fun x =>
              decide (x.pc false = .blocked (.getEvents ⟨1, 1, 5, true, 0⟩) ∧
                about Obs.billed? 0 (x.log.drop s.log.length) =
                  [.putBack 0, .done 0 (some 1)])) = true) (by decide)
    obtain ⟨s, hn, hnext⟩ := (Option.any_eq_true _ _).mp hnext
    obtain ⟨hacc, hnext⟩ := Bool.and_eq_true_iff.mp hnext
    obtain ⟨x, hr, hx, hpaid⟩ := exists_run_of_exec _ _ s _ _ hnext
    refine ⟨s₀, s, x, hs, hpc, hn, hr, hx, fun h => ?_⟩
    rw [BatchSettled, hx] at h
    have hevent := h ⟨0, _, _, hring, of_decide_eq_true hacc⟩
    rw [paid, hpaid] at hevent
    -- the permit is missing
    exact absurd (congrArg List.length hevent) (show ¬2 = 3 by decide)
  · obtain ⟨s₀, hs, hpc, hnext⟩ := exists_of_exec (next ⟨2, true, true⟩) Orderly
      (.sample ⟨2, true, true⟩) (failedWrite ++ [.call false (.pollInto [none, none] 1 2)])
      (fun s₀ => s₀.pc false = .poll (.getEvents [none, none] 1 2) ∧
        ((next ⟨2, true, true⟩ s₀ (.step false { events := 2 })).any fun s =>
          (exec (next ⟨2, true, true⟩) (Working false) s
            (throwsAfter 0 8)).any fun x =>
              decide (x.pc false = .poll (.release 2 [some 1, some 2] true) ∧
                (s₀.ring.take 2).length = 2 ∧
                (next ⟨2, true, true⟩ x (.step false {})).any
                  fun z => decide (z.ioSpace = x.ioSpace))) = true) (by decide)
    obtain ⟨s, hn, hnext⟩ := (Option.any_eq_true _ _).mp hnext
    obtain ⟨x, hr, hx, hlen, hz⟩ := exists_run_of_exec _ _ s _ _ hnext
    obtain ⟨z, hz, hspace⟩ := (Option.any_eq_true _ _).mp hz
    refine ⟨s₀, s, x, hs, hpc, hn, hr, hx, fun h => ?_⟩
    rw [BatchSettled, hx] at h
    have hpermits := h.2 x {} z hx hz
    rw [of_decide_eq_true hspace, hlen] at hpermits
    simp at hpermits

end ArtemisNative
