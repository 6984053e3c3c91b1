/-
ArtemisNative/Settlement.lean

What an event of a batch should lead to, and what it has led to.

In `blockedPoll` an event should lead to a call of `onError` if it failed, to the iocb back in
the pool, to a call of `done` and to a permit (`blockedSettlement`); in the native `poll` to
the call of `onError`, to an entry in the array and to the iocb back in the pool
(`pollSettlement`).  Stage by stage, a part of that is due.

`eventStep_pays` and `pollStep_pays` compare what a step says with what falls due by it.  They
are the same exactly if the step leaves nothing out, which is a condition on the answer of the
environment and on the event (`Harmless`).
-/
import ArtemisNative.Batch
import ArtemisNative.Lib.Dues

namespace ArtemisNative

open Transition Dues

variable {Tid : Type} [DecidableEq Tid] {cfg : Config} {s x x' : State Tid} {p : Tid}
variable {ans : Answer} {l : Label Tid} {st : Stage} {batch : List IoEvent}

/-! ### The requests of a batch -/

/-- An event of a batch, with its place and its request. -/
structure Entry (s : State Tid) (batch : List IoEvent) where
  index : ℕ
  event : IoEvent
  origin : Origin
  read : batch[index]? = some event
  accepted : s.accepted[event.op]? = some origin

namespace Entry

variable {i j : Entry s batch}

omit [DecidableEq Tid] in
theorem lt (i : Entry s batch) : i.index < batch.length :=
  (List.getElem?_eq_some_iff.mp i.read).1

omit [DecidableEq Tid] in
theorem eq_of_index (h : i.index = j.index) : i = j := by
  obtain ⟨n, e, g, hread, hacc⟩ := i
  obtain ⟨m, e', g', hread', hacc'⟩ := j
  obtain rfl : n = m := h
  obtain rfl := Option.some.inj (hread.symm.trans hread')
  obtain rfl := Option.some.inj (hacc.symm.trans hacc')
  rfl

omit [DecidableEq Tid] in
/-- The events of a batch are of different requests. -/
theorem eq_of_op (hnd : (batch.map (·.op)).Nodup) (h : i.event.op = j.event.op) : i = j := by
  have hop : ∀ i : Entry s batch, (batch.map (·.op))[i.index]? = some i.event.op := fun i => by
    rw [List.getElem?_map, i.read]
    rfl
  refine eq_of_index ?_
  refine (List.getElem?_inj (by rw [List.length_map]; exact i.lt) hnd).mp ?_
  rw [hop i, hop j, h]

end Entry

/-! ### What is due -/

/-- The request for which something is settled by an observation. -/
def Obs.billed? : Obs → Option ℕ
  | .onError o _ _ | .putBack o | .done o _ | .released o | .stored o _ _ => some o
  | _ => none

/-- What an event should lead to in `blockedPoll`: `onError` if it failed, the iocb back in the
pool, `done`, and its permit back. -/
def blockedSettlement (cfg : Config) (g : Origin) (e : IoEvent) : List Obs :=
  g.notice e.op e.res ++ [.putBack e.op] ++ [.done e.op g.callback] ++
    if cfg.useSemaphore then [.released e.op] else []

/-- What an event should lead to in the native `poll`: `onError` if it failed, the callback in
the array, and the iocb back in the pool. -/
def pollSettlement (g : Origin) (e : IoEvent) (index : ℕ) : List Obs :=
  g.pollNotice e.op e.res ++ g.entry e.op index ++ [.putBack e.op]

/-- The part of it that is due when the event at hand has come to a stage. -/
def Stage.part (cfg : Config) (g : Origin) (e : IoEvent) : Stage → List Obs
  | .test | .stop | .sync | .onError => []
  | .take | .put _ => g.notice e.op e.res
  | .done _ => g.notice e.op e.res ++ [.putBack e.op]
  | .inDone _ | .release _ => g.notice e.op e.res ++ [.putBack e.op] ++ [.done e.op g.callback]
  | .deleteRef _ | .warn => blockedSettlement cfg g e

def PollStage.part (g : Origin) (e : IoEvent) (index : ℕ) : PollStage → List Obs
  | .onError => []
  | .store => g.pollNotice e.op e.res
  | .deleteRef | .put => g.pollNotice e.op e.res ++ g.entry e.op index

/-- What is due for an event of the batch when the thread is at a program counter. -/
def dues (cfg : Config) (i : Entry s batch) : Pc → List Obs
  | .blocked (.event f st) =>
    inTurn f.i (st.part cfg i.origin i.event) (blockedSettlement cfg i.origin i.event) i.index
  | .blocked _ => blockedSettlement cfg i.origin i.event
  | .poll (.event f st) =>
    inTurn f.i (st.part i.origin i.event i.index) (pollSettlement i.origin i.event i.index)
      i.index
  | .poll _ => pollSettlement i.origin i.event i.index
  | _ => []

/-- What the event has led to since state `s`. -/
def paid (s x : State Tid) (i : Entry s batch) : List Obs :=
  about Obs.billed? i.event.op (x.log.drop s.log.length)

/-! ### The condition -/

/-- Nothing is left out in this step of `blockedPoll`: `onError` and `done` are entered, there
is a callback, and `SubmitInfo.done` does not throw where a permit has to be released. -/
def Stage.Harmless (cfg : Config) (x : State Tid) (f : Frame) (ans : Answer) : Stage → Prop
  | .onError => (x.events f.i).res < 0 → (x.iocb (x.events f.i).obj).data ≠ .null →
      ans.skipped = false
  | .take => (x.iocb (x.events f.i).obj).data ≠ .null
  | .done _ => ans.skipped = false
  | .inDone _ => cfg.useSemaphore = true → ans.throws = false
  | _ => True

/-- And in this one of `poll`: `onError` is entered, and does not throw where permits have to
be released; the array has room. -/
def PollStage.Harmless (cfg : Config) (x : State Tid) (f : PollFrame) (ans : Answer) :
    PollStage → Prop
  | .onError => f.i < f.result → (x.events f.i).res < 0 →
      (x.iocb (x.events f.i).obj).data ≠ .null → (x.iocb (x.events f.i).obj).data ≠ .stop →
        ans.skipped = false ∧ (cfg.useSemaphore = true → ans.throws = false)
  | .store => (x.iocb (x.events f.i).obj).data ≠ .null →
      (x.iocb (x.events f.i).obj).data ≠ .stop → f.i < f.callbacks.length
  | _ => True

def Pc.Harmless (cfg : Config) (x : State Tid) (ans : Answer) : Pc → Prop
  | .blocked (.event f st) => st.Harmless cfg x f ans
  | .poll (.event f st) => st.Harmless cfg x f ans
  | _ => True

/-- The steps of thread `p` are such. -/
def Harmless (cfg : Config) (p : Tid) (x : State Tid) : Label Tid → Prop
  | .step t ans => t = p → (x.pc p).Harmless cfg x ans
  | _ => True

instance (x : State Tid) (f : Frame) (ans : Answer) : DecidablePred (Stage.Harmless cfg x f ans)
  | .onError => inferInstanceAs (Decidable ((x.events f.i).res < 0 →
      (x.iocb (x.events f.i).obj).data ≠ .null → ans.skipped = false))
  | .take => inferInstanceAs (Decidable ((x.iocb (x.events f.i).obj).data ≠ .null))
  | .done _ => inferInstanceAs (Decidable (ans.skipped = false))
  | .inDone _ => inferInstanceAs (Decidable (cfg.useSemaphore = true → ans.throws = false))
  | .test | .stop | .sync | .put _ | .release _ | .deleteRef _ | .warn => isTrue trivial

instance (x : State Tid) (f : PollFrame) (ans : Answer) :
    DecidablePred (PollStage.Harmless cfg x f ans)
  | .onError => inferInstanceAs (Decidable (f.i < f.result → (x.events f.i).res < 0 →
      (x.iocb (x.events f.i).obj).data ≠ .null → (x.iocb (x.events f.i).obj).data ≠ .stop →
        ans.skipped = false ∧ (cfg.useSemaphore = true → ans.throws = false)))
  | .store => inferInstanceAs (Decidable ((x.iocb (x.events f.i).obj).data ≠ .null →
      (x.iocb (x.events f.i).obj).data ≠ .stop → f.i < f.callbacks.length))
  | .deleteRef | .put => isTrue trivial

instance (x : State Tid) (ans : Answer) : DecidablePred (Pc.Harmless cfg x ans)
  | .blocked (.event f st) => inferInstanceAs (Decidable (st.Harmless cfg x f ans))
  | .poll (.event f st) => inferInstanceAs (Decidable (st.Harmless cfg x f ans))
  | .idle _ | .submit _ | .close _ | .blocked .lock | .blocked (.getEvents _)
  | .blocked (.unlock _) | .poll (.getEvents _ _ _) | .poll (.release _ _ _) => isTrue trivial

instance (p : Tid) (x : State Tid) : DecidablePred (Harmless cfg p x)
  | .step t ans => inferInstanceAs (Decidable (t = p → (x.pc p).Harmless cfg x ans))
  | .call _ _ | .complete _ _ | .redeliver _ | .setForceSyscall _ | .closeDumbHandlers =>
    isTrue trivial

/-- The thread is at work on the events of a batch; `blockedPoll` ends that with the one it
takes for the sentinel. -/
def Pc.working : Pc → Bool
  | .blocked (.event _ .stop) => false
  | .blocked (.event _ _) | .poll (.event _ _) => true
  | _ => false

/-- The run goes on while thread `p` is. -/
def Working (p : Tid) (x : State Tid) (l : Label Tid) : Prop :=
  Orderly x l ∧ (x.pc p).working = true

instance [Fintype Tid] (p : Tid) (x : State Tid) : DecidablePred (Working p x) := fun _ =>
  inferInstanceAs (Decidable (_ ∧ _))

theorem Pc.working_cases {q : Pc} (h : q.working = true) :
    (∃ f st, q = .blocked (.event f st) ∧ st ≠ .stop) ∨ ∃ f st, q = .poll (.event f st) := by
  rcases q with o | q | q | q | q
  · cases h
  · cases h
  · cases q with
    | event f st =>
      refine .inl ⟨f, st, rfl, ?_⟩
      rintro rfl
      cases h
    | _ => cases h
  · cases q with
    | event f st => exact .inr ⟨f, st, rfl⟩
    | _ => cases h
  · cases h

omit [DecidableEq Tid] in
theorem Working.within (h : Working p x l) : Within p x l := by
  refine ⟨h.1, ?_⟩
  rcases Pc.working_cases h.2 with ⟨f, st, hpc, -⟩ | ⟨f, st, hpc⟩ <;> rw [hpc] <;> rfl

/-- An exception is pending in `poll`. -/
def Pc.pollPending : Pc → Bool
  | .poll (.event f _) => f.pending
  | .poll (.release _ _ pending) => pending
  | _ => false

/-- All that is due is paid, and nothing is in the way of the permits of `poll`. -/
def Even (cfg : Config) (s : State Tid) (p : Tid) (batch : List IoEvent) (x : State Tid) : Prop :=
  (paid s x = fun i : Entry s batch => dues cfg i (x.pc p)) ∧
    (cfg.useSemaphore = true → (x.pc p).pollPending = false)

/-! ### One step for one event -/

variable {o : ℕ} {obs due due' : List Obs} {ob : Obs} {good : Prop}

/-- A step says `obs`, all of it about request `o` or beside the matter.  Before the step `due`
was due for it, behind it `due'` is; what falls due is said exactly if the step is `good`. -/
def Pays (o : ℕ) (obs due due' : List Obs) (good : Prop) : Prop :=
  (∀ ob ∈ obs, ob.billed? = none ∨ ob.billed? = some o) ∧
    ∃ δ, due' = due ++ δ ∧ (about Obs.billed? o obs).Sublist δ ∧
      (about Obs.billed? o obs = δ ↔ good)

namespace Pays

theorem quiet (hgood : good) : Pays o [] due due good :=
  ⟨nofun, [], (List.append_nil _).symm, List.Sublist.refl _, iff_of_true rfl hgood⟩

theorem aside (hob : ob.billed? = none) (hgood : good) : Pays o [ob] due due good := by
  have hnone : about Obs.billed? o [ob] = [] := by
    refine about_eq_nil fun ob' hob' => ?_
    rw [List.mem_singleton.mp hob', hob]
    exact nofun
  refine ⟨fun ob' hob' => .inl (List.mem_singleton.mp hob' ▸ hob), [],
    (List.append_nil _).symm, ?_, iff_of_true hnone hgood⟩
  rw [hnone]

theorem said (hob : ob.billed? = some o) (hgood : good) :
    Pays o [ob] due (due ++ [ob]) good := by
  have hself : about Obs.billed? o [ob] = [ob] :=
    about_eq_self fun ob' hob' => List.mem_singleton.mp hob' ▸ hob
  refine ⟨fun ob' hob' => .inr (List.mem_singleton.mp hob' ▸ hob), [ob], rfl, ?_,
    iff_of_true hself hgood⟩
  rw [hself]

theorem missed (δ : List Obs) (hδ : δ ≠ []) (hbad : ¬good) :
    Pays o [] due (due ++ δ) good :=
  ⟨nofun, δ, rfl, List.nil_sublist _, iff_of_false (fun h => hδ h.symm) hbad⟩

theorem congr (h : Pays o obs due due' good) {more : List Obs} (hmore : due' = more) :
    Pays o obs due more good := hmore ▸ h

end Pays

/-- The stages of `blockedPoll` between the head of the loop and the next event. -/
theorem eventStep_pays {f : Frame} {i : Entry s batch} (hi : i.event = x.events f.i)
    (hdata : st = .onError ∨ st = .take →
      i.origin.Data x.refs (x.iocb (x.events f.i).obj).data)
    (hobj : ∀ obj, st = .done obj → x.refs.deref obj = i.origin.callback)
    (hn : eventStep cfg x p ans f st = some x')
    (hst : st ≠ .test ∧ st ≠ .stop ∧ (∀ obj, st ≠ .deleteRef obj) ∧ st ≠ .warn) :
    ∃ f' st' obs, x'.pc p = .blocked (.event f' st') ∧ f'.i = f.i ∧ f'.result = f.result ∧
      x'.log = x.log ++ obs ∧
      Pays i.event.op obs (st.part cfg i.origin i.event) (st'.part cfg i.origin i.event)
        (st.Harmless cfg x f ans) := by
  obtain ⟨htest, hstop, hdel, hwarn⟩ := hst
  cases st with
  | test => exact absurd rfl htest
  | stop => exact absurd rfl hstop
  | deleteRef obj => exact absurd rfl (hdel obj)
  | warn => exact absurd rfl hwarn
  | sync =>
    simp only [eventStep] at hn
    split at hn <;> obtain rfl := Option.some.inj hn
    · exact ⟨_, _, _, State.pc_goto .., rfl, rfl, rfl, .aside rfl trivial⟩
    · exact ⟨_, _, _, State.pc_goto .., rfl, rfl, (List.append_nil _).symm,
        .quiet trivial⟩
  | onError =>
    have hdata := hdata (.inl rfl)
    simp only [eventStep] at hn
    split at hn
    · next hres =>
      split at hn
      · next hnull =>
        -- no callback, and so nothing to tell
        obtain rfl := Option.some.inj hn
        have hnone : i.origin.notice i.event.op i.event.res = [] := by
          rw [Origin.notice, hdata.null_iff.mp hnull]
          simp
        refine ⟨_, _, _, State.pc_goto .., rfl, rfl, (List.append_nil _).symm, ?_⟩
        exact (Pays.quiet fun _ h => absurd hnull h).congr hnone.symm
      · next hnull =>
        have hone : i.origin.notice i.event.op i.event.res =
            [.onError i.event.op i.origin.callback (-i.event.res)] := by
          rw [Origin.notice, if_pos]
          refine ⟨hi ▸ hres, ?_⟩
          rw [← Bool.not_eq_true, ← hdata.null_iff]
          exact hnull
        split at hn
        · next hskip =>
          split at hn
          · obtain rfl := Option.some.inj hn
            refine ⟨_, _, _, State.pc_goto .., rfl, rfl, (List.append_nil _).symm, ?_⟩
            refine (Pays.missed (i.origin.notice i.event.op i.event.res) ?_ ?_).congr
              (List.nil_append _)
            · rw [hone]
              exact List.cons_ne_nil _ _
            · intro hgood
              have hentered : ans.skipped = false := hgood hres hnull
              rw [hskip] at hentered
              cases hentered
          · cases hn
        · next hskip =>
          obtain rfl := Option.some.inj hn
          refine ⟨_, _, _, State.pc_goto .., rfl, rfl, rfl, ?_⟩
          rw [hdata.deref, ← hi]
          refine (Pays.said rfl fun _ _ => by simpa using hskip).congr ?_
          exact (List.nil_append _).trans hone.symm
    · next hres =>
      obtain rfl := Option.some.inj hn
      have hnone : i.origin.notice i.event.op i.event.res = [] := by
        rw [Origin.notice, if_neg fun h => hres (hi ▸ h.1)]
      refine ⟨_, _, _, State.pc_goto .., rfl, rfl, (List.append_nil _).symm, ?_⟩
      exact (Pays.quiet fun h => absurd h hres).congr hnone.symm
  | take =>
    simp only [eventStep] at hn
    split at hn <;> obtain rfl := Option.some.inj hn
    · next hnull =>
      refine ⟨_, _, _, State.pc_goto .., rfl, rfl, (List.append_nil _).symm, ?_⟩
      refine (Pays.missed ([.putBack i.event.op] ++ [.done i.event.op i.origin.callback] ++
        if cfg.useSemaphore then [.released i.event.op] else []) (by simp) ?_).congr ?_
      · exact fun h => h hnull
      · simp only [Stage.part, blockedSettlement, List.append_assoc]
    · next hnull =>
      exact ⟨_, _, _, State.pc_goto .., rfl, rfl, (List.append_nil _).symm,
        .quiet hnull⟩
  | put obj =>
    obtain rfl := Option.some.inj hn
    refine ⟨_, _, _, State.pc_goto .., rfl, rfl, rfl, ?_⟩
    rw [← hi]
    exact .said rfl trivial
  | done obj =>
    have hobj := hobj obj rfl
    simp only [eventStep] at hn
    split at hn
    · next hskip =>
      split at hn
      · obtain rfl := Option.some.inj hn
        refine ⟨_, _, _, State.pc_goto .., rfl, rfl, (List.append_nil _).symm, ?_⟩
        refine (Pays.missed ([.done i.event.op i.origin.callback] ++
          if cfg.useSemaphore then [.released i.event.op] else []) (by simp) ?_).congr ?_
        · intro hgood
          have hentered : ans.skipped = false := hgood
          rw [hskip] at hentered
          cases hentered
        · simp only [Stage.part, blockedSettlement, List.append_assoc]
      · cases hn
    · next hskip =>
      obtain rfl := Option.some.inj hn
      refine ⟨_, _, _, State.pc_goto .., rfl, rfl, rfl, ?_⟩
      rw [← hi, hobj]
      exact .said rfl (Bool.eq_false_iff.mpr hskip)
  | inDone obj =>
    simp only [eventStep] at hn
    split at hn <;> obtain rfl := Option.some.inj hn
    · next hthrow =>
      refine ⟨_, _, _, State.pc_goto .., rfl, rfl, (List.append_nil _).symm, ?_⟩
      by_cases hsem : cfg.useSemaphore = true
      · refine (Pays.missed [.released i.event.op] (List.cons_ne_nil _ _) ?_).congr ?_
        · intro hgood
          have hreturned : ans.throws = false := hgood hsem
          rw [hthrow] at hreturned
          cases hreturned
        · rw [Stage.part, Stage.part, blockedSettlement, if_pos hsem]
      · refine (Pays.quiet fun h => absurd h hsem).congr ?_
        rw [Stage.part, Stage.part, blockedSettlement, if_neg hsem, List.append_nil]
    · next hthrow =>
      exact ⟨_, _, _, State.pc_goto .., rfl, rfl, rfl,
        .aside rfl fun _ => by simpa using hthrow⟩
  | release obj =>
    simp only [eventStep] at hn
    split at hn <;> obtain rfl := Option.some.inj hn
    · next hsem =>
      refine ⟨_, _, _, State.pc_goto .., rfl, rfl, rfl, ?_⟩
      rw [← hi]
      refine (Pays.said rfl trivial).congr ?_
      rw [Stage.part, Stage.part, blockedSettlement, if_pos hsem]
    · next hsem =>
      refine ⟨_, _, _, State.pc_goto .., rfl, rfl, (List.append_nil _).symm, ?_⟩
      refine (Pays.quiet trivial).congr ?_
      rw [Stage.part, Stage.part, blockedSettlement, if_neg hsem, List.append_nil]

/-- The stages of `poll` before the iocb is put back.  An exception that `onError` or the array
store throws stands in the way of the permits. -/
theorem pollStep_pays {f : PollFrame} {st : PollStage} {i : Entry s batch}
    (hi : i.event = x.events f.i) (hindex : i.index = f.i) (hlt : f.i < f.result)
    (hdata : st = .onError ∨ st = .store →
      i.origin.Data x.refs (x.iocb (x.events f.i).obj).data)
    (hn : pollStep cfg x p ans (.event f st) = some x') (hst : st ≠ .put) :
    ∃ f' st' obs entered, x'.pc p = .poll (.event f' st') ∧ f'.i = f.i ∧ f'.result = f.result ∧
      x'.log = x.log ++ obs ∧
      Pays i.event.op obs (st.part i.origin i.event i.index) (st'.part i.origin i.event i.index)
        entered ∧
      (entered ∧ (cfg.useSemaphore = true → f'.pending = false) ↔
        (cfg.useSemaphore = true → f.pending = false) ∧ st.Harmless cfg x f ans) := by
  cases st with
  | put => exact absurd rfl hst
  | onError =>
    have hdata := hdata (.inl rfl)
    simp only [pollStep, if_pos hlt] at hn
    split at hn
    · next hcond =>
      have hone : i.origin.pollNotice i.event.op i.event.res =
          [.onError i.event.op i.origin.callback (-i.event.res)] := by
        rw [Origin.pollNotice, if_pos ⟨hi ▸ hcond.1, hdata.callback_iff.mp hcond.2⟩]
      -- the call is due, so the condition is about the answer alone
      have hgood : PollStage.onError.Harmless cfg x f ans ↔
          ans.skipped = false ∧ (cfg.useSemaphore = true → ans.throws = false) :=
        ⟨fun h => h hlt hcond.1 hcond.2.1 hcond.2.2, fun h _ _ _ _ => h⟩
      split at hn
      · next hskip =>
        split at hn
        · obtain rfl := Option.some.inj hn
          refine ⟨_, _, _, False, State.pc_goto .., rfl, rfl, (List.append_nil _).symm,
            (Pays.missed (i.origin.pollNotice i.event.op i.event.res) ?_ id).congr
              (List.nil_append _), ?_⟩
          · rw [hone]
            exact List.cons_ne_nil _ _
          · rw [hgood, hskip]
            simp
        · cases hn
      · next hskip =>
        obtain rfl := Option.some.inj hn
        refine ⟨_, _, _, True, State.pc_goto .., rfl, rfl, rfl, ?_, ?_⟩
        · rw [hdata.deref, ← hi]
          exact (Pays.said rfl trivial).congr ((List.nil_append _).trans hone.symm)
        · rw [hgood, Bool.eq_false_iff.mpr hskip, true_and]
          simp only [Bool.or_eq_false_iff, true_and]
          exact imp_and
    · next hcond =>
      obtain rfl := Option.some.inj hn
      have hnone : i.origin.pollNotice i.event.op i.event.res = [] := by
        rw [Origin.pollNotice, if_neg]
        exact fun h => hcond ⟨hi ▸ h.1, hdata.callback_iff.mpr h.2⟩
      refine ⟨_, _, _, True, State.pc_goto .., rfl, rfl, (List.append_nil _).symm,
        (Pays.quiet trivial).congr hnone.symm, ?_⟩
      rw [true_and, and_iff_left]
      exact fun _ hres hnull hstop => absurd ⟨hres, hnull, hstop⟩ hcond
  | store =>
    have hdata := hdata (.inr rfl)
    simp only [pollStep] at hn
    split at hn
    · next hcond =>
      have hone : i.origin.entry i.event.op i.index =
          [.stored i.event.op i.origin.callback f.i] := by
        rw [Origin.entry, if_pos (hdata.callback_iff.mp hcond), hindex]
      split at hn <;> obtain rfl := Option.some.inj hn
      · next hlen =>
        refine ⟨_, _, _, True, State.pc_goto .., rfl, rfl, rfl, ?_, ?_⟩
        · rw [hdata.deref, ← hi]
          exact (Pays.said rfl trivial).congr (congrArg _ hone.symm)
        · rw [true_and, and_iff_left]
          · rfl
          · exact fun _ _ => hlen
      · next hlen =>
        refine ⟨_, _, _, False, State.pc_goto .., rfl, rfl, (List.append_nil _).symm,
          Pays.missed (i.origin.entry i.event.op i.index) ?_ id, ?_⟩
        · rw [hone]
          exact List.cons_ne_nil _ _
        · rw [false_and, false_iff]
          exact fun h => hlen (h.2 hcond.1 hcond.2)
    · next hcond =>
      obtain rfl := Option.some.inj hn
      have hnone : i.origin.entry i.event.op i.index = [] := by
        rw [Origin.entry, if_neg]
        exact fun h => hcond (hdata.callback_iff.mpr h)
      refine ⟨_, _, _, True, State.pc_goto .., rfl, rfl, (List.append_nil _).symm,
        (Pays.quiet trivial).congr ?_, ?_⟩
      · show _ = _ ++ i.origin.entry i.event.op i.index
        rw [hnone, List.append_nil]
        rfl
      · rw [true_and, and_iff_left]
        exact fun hnull hstop => absurd ⟨hnull, hstop⟩ hcond
  | deleteRef =>
    obtain rfl := Option.some.inj hn
    refine ⟨_, _, _, True, State.pc_goto .., rfl, rfl, (List.append_nil _).symm,
      Pays.quiet trivial, ?_⟩
    rw [true_and, and_iff_left]
    trivial

end ArtemisNative
