/-
ArtemisNative/Mirror.lean

A run with repetitions, without them.

A run in which all repetitions are recognised is, apart from them, a run against a kernel
that delivers every event once.  `Mirror` is what differs between the two states: the mirror
keeps in its completion ring the first event of each request that has not been handled
(`Lib/Firsts.lean`), reads one event at a time, and waits while the poller goes through a
repetition.  Every step is matched by steps of the mirror (`Mirrors.step`), so all that holds
of runs without repetitions holds of the mirror.
-/
import ArtemisNative.Repeats
import ArtemisNative.Lib.Firsts

namespace ArtemisNative

open Transition

variable {Tid : Type} [DecidableEq Tid] {cfg : Config} {x x' : State Tid} {t p : Tid}
variable {ans : Answer} {l : Label Tid} {b : ℕ}

/-! ### The mirror -/

/-- What the mirror of a state has for itself. -/
structure Mirror where
  ring : List IoEvent
  pc : Pc
  events : ℕ → IoEvent
  log : List Obs
  forceSysCall : Bool

/-- The state in which thread `p` and the kernel are as in the mirror. -/
def State.mirror (x : State Tid) (p : Tid) (m : Mirror) : State Tid :=
  { x with
    ring := m.ring
    pc := Function.update x.pc p m.pc
    events := m.events
    log := m.log
    forceSysCall := m.forceSysCall }

/-- The events that thread `p` has not come to, in its batch and in the ring. -/
def Pc.rest (events : ℕ → IoEvent) : Pc → List IoEvent
  | .blocked (.event f .test) => eventsFrom events f.i f.result
  | .blocked (.event f _) => eventsFrom events (f.i + 1) f.result
  | _ => []

def State.queue (x : State Tid) (p : Tid) : List IoEvent := (x.pc p).rest x.events ++ x.ring

/-- The event that thread `p` is at. -/
def Pc.atHand (events : ℕ → IoEvent) : Pc → List IoEvent
  | .blocked (.event _ .test) => []
  | .blocked (.event f _) => [events f.i]
  | _ => []

/-- The requests whose events thread `p` has come to. -/
def State.seen (x : State Tid) (p : Tid) : List ℕ :=
  ((x.pc p).atHand x.events).map (·.op) ++ x.handled

/-- The places of an event that is handled, before and behind `putIOCB`. -/
def Stage.Answers (handled : Prop) : Stage → Prop
  | .sync | .onError | .take | .put _ => ¬handled
  | .done _ | .inDone _ | .release _ | .deleteRef _ => handled
  | .test | .stop | .warn => False

/-- The places of an event that is recognised as a repetition. -/
def Stage.skips : Stage → Bool
  | .sync | .onError | .take | .warn => true
  | _ => false

theorem Stage.Answers.ne_test {handled : Prop} {st : Stage} (h : st.Answers handled) :
    st ≠ .test := by
  rintro rfl
  exact h

theorem Stage.ne_test_of_skips {st : Stage} (h : st.skips = true) : st ≠ .test := by
  rintro rfl
  cases h

/-- Where the mirror is when thread `p` is at a place: at the same one, for an event that
is being handled, and else at the wait. -/
inductive Follows (handled : List ℕ) (events events' : ℕ → IoEvent) : Pc → Pc → Prop
  | idle (o : Outcome) : Follows handled events events' (.idle o) (.idle o)
  | submit (q : SubmitPc) : Follows handled events events' (.submit q) (.submit q)
  | lock : Follows handled events events' (.blocked .lock) (.blocked .lock)
  | unlock (o : Outcome) :
      Follows handled events events' (.blocked (.unlock o)) (.blocked (.unlock o))
  | getEvents (f f' : Frame) (hp : f'.pending = f.pending) :
      Follows handled events events' (.blocked (.getEvents f)) (.blocked (.getEvents f'))
  | test (f f' : Frame) (hp : f'.pending = f.pending) :
      Follows handled events events' (.blocked (.event f .test)) (.blocked (.getEvents f'))
  | repeated (f f' : Frame) (st : Stage) (hp : f'.pending = f.pending) (hst : st.skips = true)
      (hold : (events f.i).op ∈ handled) :
      Follows handled events events' (.blocked (.event f st)) (.blocked (.getEvents f'))
  | fresh (f f' : Frame) (st : Stage) (hp : f'.pending = f.pending) (hi : f'.i = 0)
      (hresult : f'.result = 1) (hev : events' 0 = events f.i)
      (hst : st.Answers ((events f.i).op ∈ handled)) :
      Follows handled events events' (.blocked (.event f st)) (.blocked (.event f' st))

/-- The mirror of a state in which repetitions are recognised. -/
structure Mirrors (p : Tid) (x : State Tid) (m : Mirror) : Prop where
  follows : Follows x.handled x.events m.events (x.pc p) m.pc
  ring : m.ring = firsts (·.op) (x.seen p) (x.queue p)
  /-- what the poller has or will come to has been delivered, and the other way round -/
  known : ∀ e ∈ (x.pc p).atHand x.events ++ x.queue p, e ∈ x.delivered
  old : ∀ o ∈ x.handled, o ∈ x.delivered.map (·.op)
  kept : ∀ e ∈ x.delivered, e.op ∈ x.seen p ∨ e.op ∈ (x.queue p).map (·.op)

/-! ### Operations on mirrors -/

variable {m m' : Mirror}

@[simp] theorem mirror_pc_self : (x.mirror p m).pc p = m.pc := Function.update_self _ _ _

theorem mirror_pc_of_ne (h : t ≠ p) : (x.mirror p m).pc t = x.pc t := Function.update_of_ne h _ _

@[simp] theorem mirror_goto (q : Pc) :
    (x.mirror p m).goto p q = x.mirror p { m with pc := q } := by
  simp [State.mirror, State.goto]

@[simp] theorem goto_mirror (q : Pc) : (x.goto p q).mirror p m = x.mirror p m := by
  simp [State.mirror, State.goto]

@[simp] theorem mirror_record (obs : List Obs) :
    (x.mirror p m).record obs = x.mirror p { m with log := m.log ++ obs } := rfl

@[simp] theorem record_mirror (obs : List Obs) : (x.record obs).mirror p m = x.mirror p m := rfl

@[simp] theorem mirror_putBack : (x.mirror p m).putBack b = (x.putBack b).mirror p m := rfl

@[simp] theorem mirror_deleteRef (data : IocbData) :
    (x.mirror p m).deleteRef data = (x.deleteRef data).mirror p m := rfl

theorem mirror_getEvents (k : ℕ) (obs : ℕ → Obs) :
    (x.mirror p m).getEvents k obs = x.mirror p
      { m with
        ring := m.ring.drop k
        events := fun j => ((m.ring.take k)[j]?).getD (m.events j)
        log := m.log ++ (m.ring.take k).map fun e => obs e.op } := rfl

@[simp] theorem mirror_setIocb (c : Iocb) :
    (x.mirror p m).setIocb b c = (x.setIocb b c).mirror p m := rfl

@[simp] theorem mirror_iocb : (x.mirror p m).iocb = x.iocb := rfl

@[simp] theorem mirror_events : (x.mirror p m).events = m.events := rfl

@[simp] theorem mirror_refs : (x.mirror p m).refs = x.refs := rfl

@[simp] theorem mirror_dumbWriteHandler : (x.mirror p m).dumbWriteHandler = x.dumbWriteHandler :=
  rfl

/-- A thread that has moved in a state moves so in its mirror. -/
theorem goto_mirror_goto (q : Pc) :
    ((x.goto t q).mirror p m).goto t q = (x.mirror p m).goto t q := by
  simp only [State.mirror, State.goto, State.mk.injEq, true_and, and_true]
  funext u
  by_cases hut : u = t
  · rw [hut, Function.update_self, Function.update_self]
  · by_cases hup : u = p
    · rw [Function.update_of_ne hut, Function.update_of_ne hut, hup, Function.update_self,
        Function.update_self]
    · simp [hut, hup]

theorem goto_mirror_pc (q : Pc) :
    ((x.goto t q).mirror p m).goto t ((x.goto t q).pc t) = (x.mirror p m).goto t q := by
  rw [State.pc_goto]
  exact goto_mirror_goto q

/-- The mirror of a state in which thread `t` has moved. -/
def Mirror.follow (m : Mirror) (p t : Tid) (q : Pc) : Mirror :=
  if t = p then { m with pc := q } else m

theorem mirror_goto_follow :
    (x.mirror p m).goto t (x.pc t) = x.mirror p (m.follow p t (x.pc t)) := by
  rw [Mirror.follow]
  split
  · rename_i htp
    rw [htp, mirror_goto]
  · rename_i htp
    simp only [State.mirror, State.goto, State.mk.injEq, true_and, and_true]
    rw [Function.update_comm (Ne.symm htp), Function.update_eq_self]

theorem mirror_submit {q : SubmitPc} (hq : (x.mirror p m).pc t = .submit q)
    (hm : SubmitMoves cfg x t ans q x') : next cfg (x.mirror p m) (.step t ans) =
      some (x'.mirror p (m.follow p t (x'.pc t))) := by
  rw [← mirror_goto_follow]
  simp only [next, hq, threadStep]
  cases hm with
  | interrupted a hsem hint =>
    rw [goto_mirror_pc]
    simp only [submitStep, hsem, hint, if_true]
  | acquired a hsem hint hpos =>
    rw [goto_mirror_pc]
    simp only [submitStep, hsem, hint, if_true, Bool.false_eq_true, if_false]
    exact if_pos hpos
  | unlimited a hsem =>
    rw [goto_mirror_pc]
    simp only [submitStep, hsem, Bool.false_eq_true, if_false]
  | noSpace a hg =>
    rw [goto_mirror_pc]
    have hg' : (x.mirror p m).pool.getIOCB = none := hg
    simp only [submitStep, hg']
  | gotIOCB a b pool hg =>
    rw [goto_mirror_pc]
    have hg' : (x.mirror p m).pool.getIOCB = some (b, pool) := hg
    simp only [submitStep, hg']
    rfl
  | prepared a b =>
    rw [goto_mirror_pc]
    rfl
  | rejected a b hneg =>
    rw [goto_mirror_pc]
    simp only [submitStep, if_pos hneg]
  | accepted a b hpos hfd =>
    rw [goto_mirror_pc]
    have hfd' : 0 ≤ ((x.mirror p m).iocb b).aio_fildes := hfd
    simp only [submitStep, if_neg (not_lt.mpr hpos), if_pos hfd']
    rfl
  | refDeleted b errno =>
    rw [goto_mirror_pc]
    rfl
  | undone b errno =>
    rw [goto_mirror_pc]
    rfl

theorem mirror_call (cfg : Config) {meth : Method} {o : Outcome}
    (hq : (x.mirror p m).pc t = .idle o) (hmeth : meth = .poll ∨ ∃ a, meth = .submit a) :
    next cfg (x.mirror p m) (.call t meth) =
      some ((callStep x t meth).mirror p (m.follow p t ((callStep x t meth).pc t))) := by
  rw [← mirror_goto_follow]
  have hclosed : (x.mirror p m).closed = x.closed := rfl
  simp only [next, hq]
  rcases hmeth with rfl | ⟨a, rfl⟩ <;> cases hcl : x.closed <;>
    simp only [callStep, hclosed, hcl, if_true, Bool.false_eq_true, if_false, goto_mirror_pc]

/-! ### Steps that the mirror sees -/

omit [DecidableEq Tid] in
/-- Nothing is read, and the poller comes to no other event. -/
theorem Mirrors.keep (h : Mirrors p x m)
    (hfol : Follows x'.handled x'.events m'.events (x'.pc p) m'.pc) (hring : m'.ring = m.ring)
    (hqueue : x'.queue p = x.queue p) (hseen : ∀ o, o ∈ x'.seen p ↔ o ∈ x.seen p)
    (hdel : x'.delivered = x.delivered)
    (hhand : ∀ e ∈ (x'.pc p).atHand x'.events, e ∈ (x.pc p).atHand x.events) :
    Mirrors p x' m' := by
  have hseenold : ∀ o ∈ x.seen p, o ∈ x.delivered.map (·.op) := by
    intro o ho
    rcases List.mem_append.mp ho with ho | ho
    · obtain ⟨e, he, rfl⟩ := List.mem_map.mp ho
      exact List.mem_map_of_mem (h.known e (List.mem_append_left _ he))
    · exact h.old o ho
  refine ⟨hfol, ?_, ?_, ?_, ?_⟩
  · rw [hring, h.ring, hqueue]
    exact (firsts_congr hseen).symm
  · intro e he
    rw [hdel]
    rcases List.mem_append.mp he with he | he
    · exact h.known e (List.mem_append_left _ (hhand e he))
    · exact h.known e (List.mem_append_right _ (hqueue ▸ he))
  · intro o ho
    rw [hdel]
    exact hseenold o ((hseen o).mp (List.mem_append_right _ ho))
  · intro e he
    rw [hqueue]
    exact (h.kept e (hdel ▸ he)).imp_left (hseen _).mpr

omit [DecidableEq Tid] in
/-- The poller goes on outside the loop over a batch. -/
theorem Mirrors.between {q r r' : Pc} (h : Mirrors p x m) (hpc : x.pc p = q) (hpc' : x'.pc p = r)
    (hq : ∀ ev, q.rest ev = [] ∧ q.atHand ev = []) (hr : ∀ ev, r.rest ev = [] ∧ r.atHand ev = [])
    (hfol : Follows x.handled x.events m.events r r') (hev : x'.events = x.events)
    (hring : x'.ring = x.ring) (hdel : x'.delivered = x.delivered)
    (hhandled : x'.handled = x.handled) : Mirrors p x' { m with pc := r' } := by
  refine h.keep ?_ rfl ?_ (fun o => ?_) hdel ?_
  · rw [hpc', hev, hhandled]
    exact hfol
  · rw [State.queue, hpc', (hr _).1, hring, State.queue, hpc, (hq _).1]
  · rw [State.seen, hpc', (hr _).2, hhandled, State.seen, hpc, (hq _).2]
  · rw [hpc', (hr _).2]
    exact List.forall_mem_nil _

/-- The thread is outside the loop over a batch, at a place of which the mirror has a copy. -/
def Pc.Outside : Pc → Prop
  | .idle _ | .submit _ | .blocked .lock | .blocked (.unlock _) => True
  | _ => False

theorem Follows.outside {handled : List ℕ} {ev ev' : ℕ → IoEvent} {q q' : Pc}
    (h : Follows handled ev ev' q q') (hq : q.Outside) : q' = q := by
  cases h with
  | idle | submit | lock | unlock => rfl
  | _ => exact hq.elim

theorem Follows.refl {handled : List ℕ} {ev ev' : ℕ → IoEvent} {q : Pc} (hq : q.Outside) :
    Follows handled ev ev' q q := by
  match q, hq with
  | .idle o, _ => exact .idle o
  | .submit q, _ => exact .submit q
  | .blocked .lock, _ => exact .lock
  | .blocked (.unlock o), _ => exact .unlock o

theorem Pc.Outside.rest {events : ℕ → IoEvent} {q : Pc} (hq : q.Outside) :
    q.rest events = [] ∧ q.atHand events = [] := by
  match q, hq with
  | .idle _, _ | .submit _, _ | .blocked .lock, _ | .blocked (.unlock _), _ => exact ⟨rfl, rfl⟩

/-- Thread `t` calls or submits: what there is to see of it for the poller and the
kernel. -/
structure Aside (t : Tid) (x x' : State Tid) : Prop where
  pc : ∃ q : Pc, x'.pc = Function.update x.pc t q ∧ q.Outside
  outside : (x.pc t).Outside
  ring : x'.ring = x.ring
  events : x'.events = x.events
  log : x'.log = x.log
  delivered : x'.delivered = x.delivered
  accepted : x.accepted <+: x'.accepted

theorem Aside.handled (ha : Aside t x x') : x'.handled = x.handled := by
  rw [State.handled, ha.log, State.handled]

theorem SubmitMoves.aside {q : SubmitPc} (hpc : x.pc t = .submit q)
    (hm : SubmitMoves cfg x t ans q x') : Aside t x x' := by
  have hout : (x.pc t).Outside := by rw [hpc]; trivial
  cases hm with
  | accepted a b _ _ =>
    exact ⟨⟨_, rfl, trivial⟩, hout, rfl, rfl, rfl, rfl, List.prefix_append _ _⟩
  | _ => exact ⟨⟨_, rfl, trivial⟩, hout, rfl, rfl, rfl, rfl, List.prefix_refl _⟩

theorem CallMoves.aside {meth : Method} {o : Outcome} (hl : Repeats p (.call t meth))
    (hpc : x.pc t = .idle o) (hm : CallMoves x t meth x') : Aside t x x' := by
  have hout : (x.pc t).Outside := by rw [hpc]; trivial
  cases hm with
  | pollInto _ _ _ => exact hl.2.1.elim
  | close _ | closeAgain _ => exact hl.2.2.1.elim
  | _ => exact ⟨⟨_, rfl, trivial⟩, hout, rfl, rfl, rfl, rfl, List.prefix_refl _⟩

theorem Mirrors.aside (h : Mirrors p x m) (ha : Aside t x x') :
    Mirrors p x' (m.follow p t (x'.pc t)) := by
  obtain ⟨q, hpc, hq⟩ := ha.pc
  have hself : x'.pc t = q := by rw [hpc, Function.update_self]
  by_cases htp : t = p
  · subst htp
    rw [Mirror.follow, if_pos rfl, hself]
    exact h.between rfl hself (fun _ => ha.outside.rest) (fun _ => hq.rest) (.refl hq) ha.events
      ha.ring ha.delivered ha.handled
  · have hsame : x'.pc p = x.pc p := by rw [hpc, Function.update_of_ne (Ne.symm htp)]
    rw [Mirror.follow, if_neg htp]
    refine h.keep ?_ rfl ?_ (fun o => ?_) ha.delivered ?_
    · rw [hsame, ha.handled, ha.events]
      exact h.follows
    · rw [State.queue, hsame, ha.events, ha.ring, State.queue]
    · rw [State.seen, hsame, ha.events, ha.handled, State.seen]
    · rw [hsame, ha.events]
      exact fun _ he => he

omit [DecidableEq Tid] in
/-- The kernel completes a request for the first time. -/
theorem Mirrors.complete {k : ℕ} {res : ℤ} {r : Request} (h : Mirrors p x m) (hx : Plain p x)
    (hr : x.inflight[k]? = some r) :
    Mirrors p (x.complete k ⟨r.obj, res, r.op⟩)
      { m with
        ring := m.ring ++ [⟨r.obj, res, r.op⟩]
        log := m.log ++ [.completed r.op res] } := by
  have hnew := hx.not_delivered hr
  have hknown : ∀ e ∈ (x.pc p).atHand x.events ++ x.queue p, e.op ≠ r.op := by
    intro e he hop
    exact hnew (hop ▸ List.mem_map_of_mem (h.known e he))
  have hhandled : (x.complete k ⟨r.obj, res, r.op⟩).handled = x.handled := by
    simp [State.handled, State.complete, Obs.putBack?]
  have hseen : (x.complete k ⟨r.obj, res, r.op⟩).seen p = x.seen p := by
    rw [State.seen, hhandled]
    rfl
  have hqueue : (x.complete k ⟨r.obj, res, r.op⟩).queue p = x.queue p ++ [⟨r.obj, res, r.op⟩] := by
    simp [State.queue, State.complete, List.append_assoc]
  refine ⟨?_, ?_, ?_, ?_, ?_⟩
  · rw [hhandled]
    exact h.follows
  · rw [hseen, hqueue, h.ring, firsts_snoc_of_not_mem]
    · intro hmem
      rcases List.mem_append.mp hmem with hmem | hmem
      · obtain ⟨e, he, hop⟩ := List.mem_map.mp hmem
        exact hknown e (List.mem_append_left _ he) hop
      · exact hnew (h.old _ hmem)
    · intro hmem
      obtain ⟨e, he, hop⟩ := List.mem_map.mp hmem
      exact hknown e (List.mem_append_right _ he) hop
  · intro e he
    rw [hqueue, ← List.append_assoc] at he
    rcases List.mem_append.mp he with he | he
    · exact List.mem_append_left _ (h.known e he)
    · exact List.mem_append_right _ he
  · intro o ho
    rw [hhandled] at ho
    exact List.map_subset _ (List.subset_append_left _ _) (h.old o ho)
  · intro e he
    rw [hseen, hqueue]
    rcases List.mem_append.mp he with he | he
    · refine (h.kept e he).imp_right fun hq => ?_
      exact List.map_subset _ (List.subset_append_left _ _) hq
    · exact .inr (List.mem_map_of_mem (List.mem_append_right _ he))

/-! ### Steps that the mirror does not see -/

omit [DecidableEq Tid] in
/-- The kernel delivers an event again. -/
theorem Mirrors.redeliver {k : ℕ} {ev : IoEvent} (h : Mirrors p x m)
    (hev : x.delivered[k]? = some ev) : Mirrors p { x with ring := x.ring ++ [ev] } m := by
  have hmem := List.mem_of_getElem? hev
  have hqueue : State.queue { x with ring := x.ring ++ [ev] } p = x.queue p ++ [ev] := by
    simp [State.queue, List.append_assoc]
  refine ⟨h.follows, ?_, fun e he => ?_, h.old, fun e he => ?_⟩
  · rw [hqueue]
    exact h.ring.trans (firsts_snoc_of_mem (h.kept ev hmem)).symm
  · rw [hqueue, ← List.append_assoc] at he
    rcases List.mem_append.mp he with he | he
    · exact h.known e he
    · rw [List.mem_singleton.mp he]
      exact hmem
  · rw [hqueue]
    refine (h.kept e he).imp_right fun hq => ?_
    exact List.map_subset _ (List.subset_append_left _ _) hq

/-- The poller reads a batch. -/
theorem Mirrors.read {f f' : Frame} {k : ℕ} (h : Mirrors p x m)
    (hpc : x.pc p = .blocked (.getEvents f)) (hmp : m.pc = .blocked (.getEvents f'))
    (hp : f'.pending = f.pending) (hk : k ≤ x.ring.length) :
    Mirrors p ((x.getEvents k .reaped).goto p
      (.blocked (.event { f with i := 0, result := k, lastFile := -1 } .test))) m := by
  have hnone : (x.ring.take k).filterMap (Obs.putBack? ∘ fun e => .reaped e.op) = [] :=
    List.filterMap_eq_nil_iff.mpr fun _ _ => rfl
  have hhandled : ∀ q, ((x.getEvents k .reaped).goto p q).handled = x.handled := by
    intro q
    show (x.log ++ (x.ring.take k).map fun e => Obs.reaped e.op).filterMap Obs.putBack? = x.handled
    rw [List.filterMap_append, List.filterMap_map, hnone, List.append_nil]
    rfl
  refine h.keep ?_ rfl ?_ (fun o => ?_) rfl ?_
  · rw [State.pc_goto, hmp]
    exact .test _ _ hp
  · have hbatch := eventsFrom_getEvents (s := x) .reaped hk
    rw [State.queue, State.pc_goto, State.queue, hpc]
    show eventsFrom (x.getEvents k .reaped).events 0 k ++ x.ring.drop k = [] ++ x.ring
    rw [hbatch, List.take_append_drop, List.nil_append]
  · rw [State.seen, State.pc_goto, hhandled, State.seen, hpc]
    rfl
  · rw [State.pc_goto]
    exact List.forall_mem_nil _

omit [DecidableEq Tid] in
theorem queue_event {f : Frame} {st : Stage} (hpc : x.pc p = .blocked (.event f st))
    (hst : st ≠ .test) :
    x.queue p = eventsFrom x.events (f.i + 1) f.result ++ x.ring ∧
      (x.pc p).atHand x.events = [x.events f.i] ∧
      x.seen p = (x.events f.i).op :: x.handled := by
  rw [State.queue, State.seen, hpc]
  cases st with
  | test => exact absurd rfl hst
  | _ => exact ⟨rfl, rfl, rfl⟩

omit [DecidableEq Tid] in
theorem queue_test {f : Frame} (hpc : x.pc p = .blocked (.event f .test)) :
    x.queue p = eventsFrom x.events f.i f.result ++ x.ring ∧
      (x.pc p).atHand x.events = [] ∧ x.seen p = x.handled := by
  rw [State.queue, State.seen, hpc]
  exact ⟨rfl, rfl, rfl⟩

omit [DecidableEq Tid] in
/-- The poller goes on with the event at hand. -/
theorem Mirrors.stage {f g : Frame} {st st' : Stage} (h : Mirrors p x m)
    (hpc : x.pc p = .blocked (.event f st)) (hpc' : x'.pc p = .blocked (.event g st'))
    (hst : st ≠ .test) (hst' : st' ≠ .test) (hi : g.i = f.i) (hres : g.result = f.result)
    (hev : x'.events = x.events) (hring : x'.ring = x.ring) (hdel : x'.delivered = x.delivered)
    (hhandled : x'.handled = x.handled ∨ x'.handled = x.handled ++ [(x.events f.i).op])
    (hfol : Follows x'.handled x.events m'.events (.blocked (.event g st')) m'.pc)
    (hmring : m'.ring = m.ring) : Mirrors p x' m' := by
  obtain ⟨hq, hhand, hs⟩ := queue_event hpc hst
  obtain ⟨hq', hhand', hs'⟩ := queue_event hpc' hst'
  rw [hev, hi] at hhand' hs'
  refine h.keep ?_ hmring ?_ (fun o => ?_) hdel ?_
  · rw [hpc', hev]
    exact hfol
  · rw [hq', hq, hev, hi, hres, hring]
  · rw [hs', hs]
    rcases hhandled with hh | hh <;> rw [hh]
    simp only [List.mem_cons, List.mem_append, List.not_mem_nil, or_false]
    tauto
  · rw [hev, hhand', hhand]
    exact fun _ he => he

omit [DecidableEq Tid] in
/-- The poller is done with the event at hand, which has been handled now or before. -/
theorem Mirrors.leave {f f' : Frame} {st : Stage} (h : Mirrors p x m)
    (hpc : x.pc p = .blocked (.event f st))
    (hpc' : x'.pc p = .blocked (.event { f with i := f.i + 1 } .test)) (hst : st ≠ .test)
    (hev : x'.events = x.events) (hring : x'.ring = x.ring) (hdel : x'.delivered = x.delivered)
    (hhandled : x'.handled = x.handled) (hold : (x.events f.i).op ∈ x.handled)
    (hm : m'.pc = .blocked (.getEvents f')) (hp : f'.pending = f.pending)
    (hmring : m'.ring = m.ring) : Mirrors p x' m' := by
  obtain ⟨hq, hhand, hs⟩ := queue_event hpc hst
  obtain ⟨hq', hhand', hs'⟩ := queue_test hpc'
  refine h.keep ?_ hmring ?_ (fun o => ?_) hdel ?_
  · rw [hpc', hm]
    exact .test _ _ hp
  · rw [hq', hq, hev, hring]
  · rw [hs', hs, hhandled, List.mem_cons]
    refine ⟨.inr, fun ho => ho.elim (fun he => ?_) id⟩
    rw [he]
    exact hold
  · rw [hhand']
    exact List.forall_mem_nil _

omit [DecidableEq Tid] in
/-- The poller comes to the next event of its batch; `m'` has taken it out of its ring if it
is new. -/
theorem Mirrors.come {f : Frame} (h : Mirrors p x m)
    (hpc : x.pc p = .blocked (.event f .test)) (hlt : f.i < f.result)
    (hpc' : x'.pc p = .blocked (.event f .sync)) (hev : x'.events = x.events)
    (hring : x'.ring = x.ring) (hdel : x'.delivered = x.delivered)
    (hhandled : x'.handled = x.handled)
    (hfol : Follows x.handled x.events m'.events (.blocked (.event f .sync)) m'.pc)
    (hmring : m.ring = if (x.events f.i).op ∈ x.handled then m'.ring
      else x.events f.i :: m'.ring) : Mirrors p x' m' := by
  obtain ⟨hq, hhand, hs⟩ := queue_test hpc
  obtain ⟨hq', hhand', hs'⟩ := queue_event hpc' nofun
  rw [hev, hhandled] at hs'
  rw [hev] at hq' hhand'
  have hnext : x.queue p = x.events f.i :: x'.queue p := by
    rw [hq, hq', eventsFrom_of_lt hlt, hring]
    rfl
  have hold : ∀ o ∈ x.handled, o ∈ x'.delivered.map (·.op) := fun o ho => hdel ▸ h.old o ho
  refine ⟨?_, ?_, ?_, hhandled ▸ hold, ?_⟩
  · rw [hpc', hhandled, hev]
    exact hfol
  · have hr := h.ring
    rw [hs, hnext] at hr
    by_cases hmem : (x.events f.i).op ∈ x.handled
    · rw [if_pos hmem, hr, firsts_cons_of_mem hmem] at hmring
      rw [← hmring, hs']
      refine firsts_congr fun o => ?_
      rw [List.mem_cons]
      refine ⟨.inr, fun ho => ho.elim (fun he => ?_) id⟩
      rw [he]
      exact hmem
    · rw [if_neg hmem, hr, firsts_cons_of_not_mem hmem] at hmring
      rw [hs']
      exact (List.cons.inj hmring).2.symm
  · intro e he
    rw [hdel]
    rw [hev, hhand', List.singleton_append, ← hnext] at he
    exact h.known e (List.mem_append_right _ he)
  · intro e he
    rw [hs']
    rcases h.kept e (hdel ▸ he) with ho | ho
    · exact .inl (List.mem_cons_of_mem _ (hs ▸ ho))
    · rw [hnext, List.map_cons] at ho
      rcases List.mem_cons.mp ho with ho | ho
      · exact .inl (ho ▸ List.mem_cons_self)
      · exact .inr ho

/-! ### The steps of the poller -/

/-- Outside a batch a thread is in the mirror where it is. -/
theorem Mirrors.pc_of_outside {q : Pc} (h : Mirrors p x m) (hpc : x.pc t = q) (hq : q.Outside) :
    (x.mirror p m).pc t = q := by
  by_cases htp : t = p
  · subst htp
    rw [mirror_pc_self, ← hpc]
    exact h.follows.outside (hpc ▸ hq)
  · rw [mirror_pc_of_ne htp, hpc]

theorem Follows.not_close {handled : List ℕ} {ev ev' : ℕ → IoEvent} {q : Pc} {c : ClosePc}
    (h : Follows handled ev ev' q (.close c)) : False := by
  cases h

/-- What the mirror does is a step of a run without repetitions. -/
theorem Mirrors.soloRun (h : Mirrors p x m) (hx : Plain p x) :
    SoloRun p (x.mirror p m) (.step t ans) := by
  refine ⟨trivial, trivial, fun hlock => ?_⟩
  by_cases htp : t = p
  · subst htp
    rw [mirror_pc_self] at hlock
    have hfol := h.follows
    rw [hlock] at hfol
    exact hfol.not_close
  · rw [mirror_pc_of_ne htp] at hlock
    have ht := hx.calm t
    rw [hlock] at ht
    exact ht

theorem mirror_soloRun {q : BlockedPc} (hq : m.pc = .blocked q) :
    SoloRun p (x.mirror p m) (.step p ans) := by
  refine ⟨trivial, trivial, fun hlock => ?_⟩
  rw [mirror_pc_self, hq] at hlock
  cases hlock

theorem Mirrors.one (h : Mirrors p x m) (hx : Plain p x)
    (hn : next cfg (x.mirror p m) (.step t ans) = some (x'.mirror p m')) :
    Reaches (next cfg) (SoloRun p) (x.mirror p m) (x'.mirror p m') :=
  (Reaches.refl _).step (h.soloRun hx) hn

/-- The iocb of a new event is the one of its request. -/
theorem Mirrors.fits {f f' : Frame} {st : Stage} (hmat : Matched (x.mirror p m))
    (hmp : m.pc = .blocked (.event f' st)) (hst : st = .sync ∨ st = .onError ∨ st = .take)
    (hi : f'.i = 0) (hev : m.events 0 = x.events f.i) :
    ∃ g, x.accepted[(x.events f.i).op]? = some g ∧ g.Fits x.refs (x.iocb (x.events f.i).obj) := by
  have hbatch : ((x.mirror p m).view p).batch =
      x.events f.i :: eventsFrom m.events (f'.i + 1) f'.result := by
    rw [State.view, mirror_pc_self, hmp, ← hev]
    rcases hst with rfl | rfl | rfl <;>
      · show m.events f'.i :: eventsFrom m.events (f'.i + 1) f'.result = _
        rw [hi]
  exact hmat.at_hand hbatch

theorem Mirrors.data_ne_null {f f' : Frame} {st : Stage} (hx : Plain p x)
    (hmat : Matched (x.mirror p m)) (hmp : m.pc = .blocked (.event f' st))
    (hst : st = .sync ∨ st = .onError ∨ st = .take) (hi : f'.i = 0)
    (hev : m.events 0 = x.events f.i) : (x.iocb (x.events f.i).obj).data ≠ .null := by
  obtain ⟨g, hg, hdata, -⟩ := Mirrors.fits hmat hmp hst hi hev
  intro hnull
  rw [hnull] at hdata
  cases g with
  | user a =>
    have ha := (hx.submitted.accepted a (List.mem_of_getElem? hg)).1
    obtain ⟨c, hc⟩ := Option.ne_none_iff_exists'.mp ha
    simp only [Origin.Data, GlobalRefs.Names, hc] at hdata
    obtain ⟨r, hr, -⟩ := hdata
    cases hr
  | stop fd => cases hdata

/-- The mirror at the next place of an event. -/
def Mirror.stage (m : Mirror) (g : Frame) (st : Stage) (obs : List Obs) : Mirror :=
  { m with pc := .blocked (.event g st), log := m.log ++ obs }

/-- The poller handles an event that is new. -/
theorem Mirrors.answer {f f' : Frame} {st : Stage} (h : Mirrors p x m) (hx : Plain p x)
    (hmat : Matched (x.mirror p m)) (hpc : x.pc p = .blocked (.event f st))
    (hmp : m.pc = .blocked (.event f' st)) (hp : f'.pending = f.pending) (hi : f'.i = 0)
    (hresult : f'.result = 1) (hev : m.events 0 = x.events f.i)
    (hst : st.Answers ((x.events f.i).op ∈ x.handled)) (hm : EventMoves cfg x p ans f st x') :
    ∃ m', Reaches (next cfg) (SoloRun p) (x.mirror p m) (x'.mirror p m') ∧ Mirrors p x' m' := by
  have hsame : ∀ obs, obs.filterMap Obs.putBack? = [] →
      (x.log ++ obs).filterMap Obs.putBack? = x.handled := by
    intro obs hobs
    rw [List.filterMap_append, hobs, List.append_nil, State.handled]
  -- the mirror makes the same step
  have hgo : ∀ {g : Frame} {st' : Stage} (g' : Frame) (ans' : Answer) (obs : List Obs),
      next cfg (x.mirror p m) (.step p ans') = some (x'.mirror p (m.stage g' st' obs)) →
      x'.pc p = .blocked (.event g st') → g.i = f.i → g.result = f.result →
      g'.pending = g.pending → g'.i = 0 → g'.result = 1 →
      x'.events = x.events → x'.ring = x.ring → x'.delivered = x.delivered →
      (x'.handled = x.handled ∧ st'.Answers ((x.events f.i).op ∈ x.handled) ∨
        x'.handled = x.handled ++ [(x.events f.i).op] ∧ st'.Answers True) →
      ∃ m', Reaches (next cfg) (SoloRun p) (x.mirror p m) (x'.mirror p m') ∧
        Mirrors p x' m' := by
    intro g st' g' ans' obs hn hpc' hgi hgr hgp hgi' hgr' hxe hxr hxd hh
    refine ⟨_, h.one hx hn, ?_⟩
    have hans : st'.Answers ((x.events f.i).op ∈ x'.handled) := by
      rcases hh with ⟨hh, hans⟩ | ⟨hh, hans⟩ <;> rw [hh]
      · exact hans
      · rwa [eq_true (List.mem_append_right _ (List.mem_singleton_self _))]
    refine h.stage hpc hpc' hst.ne_test hans.ne_test hgi hgr hxe hxr hxd (hh.imp (·.1) (·.1)) ?_ rfl
    refine .fresh g g' st' hgp hgi' hgr' ?_ ?_
    · rw [hgi]
      exact hev
    · rw [hgi]
      exact hans
  cases hm with
  | isStop _ _ | isEvent _ _ | batchEnd _ | stopped | warned => exact hst.elim
  | synced hsync hfd =>
    by_cases hlast : f'.lastFile = (x.iocb (x.events f.i).obj).aio_fildes
    · refine hgo f' ans [] ?_ (State.pc_goto _ _ _) rfl rfl hp hi hresult rfl rfl rfl
        (.inl ⟨hsame _ rfl, hst⟩)
      simp [next, threadStep, blockedStep, eventStep, hmp, hi, hev, hlast, Mirror.stage]
    · refine hgo { f' with lastFile := (x.iocb (x.events f.i).obj).aio_fildes }
        ans [.synced (x.iocb (x.events f.i).obj).aio_fildes ans.fdatasync] ?_ (State.pc_goto _ _ _)
        rfl rfl hp hi hresult rfl rfl rfl (.inl ⟨hsame _ rfl, hst⟩)
      simp [next, threadStep, blockedStep, eventStep, hmp, hi, hev, hsync, hlast, Mirror.stage]
  | notSynced hsync =>
    -- the mirror reads one event at a time, so it may have to sync where the poller has not
    by_cases hlast : cfg.useFdatasync = true ∧
      f'.lastFile ≠ (x.iocb (x.events f.i).obj).aio_fildes
    · refine hgo { f' with lastFile := (x.iocb (x.events f.i).obj).aio_fildes }
        ans [.synced (x.iocb (x.events f.i).obj).aio_fildes ans.fdatasync] ?_ (State.pc_goto _ _ _)
        rfl rfl hp hi hresult rfl rfl rfl (.inl ⟨rfl, hst⟩)
      simp [next, threadStep, blockedStep, eventStep, hmp, hi, hev, hlast.1, hlast.2,
        Mirror.stage]
    · refine hgo f' ans [] ?_ (State.pc_goto _ _ _) rfl rfl hp hi hresult rfl rfl rfl
        (.inl ⟨rfl, hst⟩)
      simp [next, threadStep, blockedStep, eventStep, hmp, hi, hev, hlast, Mirror.stage]
  | noError hres =>
    refine hgo f' ans [] ?_ (State.pc_goto _ _ _) rfl rfl hp hi hresult rfl rfl rfl
      (.inl ⟨rfl, hst⟩)
    simp [next, threadStep, blockedStep, eventStep, hmp, hi, hev, not_lt.mpr hres, Mirror.stage]
  | errorNull hres hnull =>
    exact absurd hnull (Mirrors.data_ne_null hx hmat hmp (.inr (.inl rfl)) hi hev)
  | errorSkipped hres hnull hpend =>
    refine hgo { f' with localRefs := f'.localRefs + 1 } { ans with skipped := true } [] ?_
      (State.pc_goto _ _ _) rfl rfl hp hi hresult rfl rfl rfl (.inl ⟨rfl, hst⟩)
    simp [next, threadStep, blockedStep, eventStep, hmp, hi, hev, hres, hnull, hp, hpend,
      Mirror.stage]
  | errorCalled hres hnull =>
    refine hgo { f' with
        localRefs := f'.localRefs + 1, pending := f'.pending || ans.throws }
      { ans with skipped := false }
      [.onError (x.events f.i).op (x.refs.deref (x.iocb (x.events f.i).obj).data)
        (-(x.events f.i).res)] ?_ (State.pc_goto _ _ _) rfl rfl (by rw [hp]) hi hresult
      rfl rfl rfl (.inl ⟨hsame _ rfl, hst⟩)
    simp [next, threadStep, blockedStep, eventStep, hmp, hi, hev, hres, hnull, Mirror.stage]
  | takenNull hnull =>
    exact absurd hnull (Mirrors.data_ne_null hx hmat hmp (.inr (.inr rfl)) hi hev)
  | taken hnull =>
    refine hgo f' ans [] ?_ (State.pc_goto _ _ _) rfl rfl hp hi hresult rfl rfl rfl
      (.inl ⟨rfl, hst⟩)
    simp [next, threadStep, blockedStep, eventStep, hmp, hi, hev, hnull, Mirror.stage]
  | put obj =>
    refine hgo f' ans [.putBack (x.events f.i).op] ?_ (State.pc_goto _ _ _) rfl rfl hp hi
      hresult rfl rfl rfl (.inr ⟨?_, trivial⟩)
    · simp [next, threadStep, blockedStep, eventStep, hmp, hi, hev, Mirror.stage]
    · exact List.filterMap_append
  | doneSkipped obj hpend =>
    refine hgo f' { ans with skipped := true } [] ?_ (State.pc_goto _ _ _) rfl rfl hp hi
      hresult rfl rfl rfl (.inl ⟨rfl, hst⟩)
    simp [next, threadStep, blockedStep, eventStep, hmp, hp, hpend, Mirror.stage]
  | doneCalled obj =>
    refine hgo f' { ans with skipped := false }
      [.done (x.events f.i).op (x.refs.deref obj)] ?_ (State.pc_goto _ _ _) rfl rfl hp hi
      hresult rfl rfl rfl (.inl ⟨hsame _ rfl, hst⟩)
    simp [next, threadStep, blockedStep, eventStep, hmp, hi, hev, Mirror.stage]
  | doneThrew obj hthrow =>
    refine hgo { f' with pending := true } ans [] ?_ (State.pc_goto _ _ _) rfl rfl rfl hi
      hresult rfl rfl rfl (.inl ⟨rfl, hst⟩)
    simp [next, threadStep, blockedStep, eventStep, hmp, hthrow, Mirror.stage]
  | doneReturned obj hthrow =>
    refine hgo f' ans [.returned (x.events f.i).op] ?_ (State.pc_goto _ _ _) rfl rfl hp hi
      hresult rfl rfl rfl (.inl ⟨hsame _ rfl, hst⟩)
    simp [next, threadStep, blockedStep, eventStep, hmp, hi, hev, hthrow, Mirror.stage]
  | released obj hsem =>
    refine hgo f' ans [.released (x.events f.i).op] ?_ (State.pc_goto _ _ _) rfl rfl hp hi
      hresult rfl rfl rfl (.inl ⟨hsame _ rfl, hst⟩)
    simp only [next, mirror_pc_self, hmp, threadStep, blockedStep, eventStep, hsem, if_true,
      mirror_events, hi, hev, goto_mirror, record_mirror]
    exact congrArg some (mirror_goto (x := { x with ioSpace := x.ioSpace + 1 })
      (m := { m with log := m.log ++ [.released (x.events f.i).op] }) _)
  | notReleased obj hsem =>
    refine hgo f' ans [] ?_ (State.pc_goto _ _ _) rfl rfl hp hi hresult rfl rfl rfl
      (.inl ⟨rfl, hst⟩)
    simp [next, threadStep, blockedStep, eventStep, hmp, hsem, Mirror.stage]
  | refDeleted obj =>
    have hn : next cfg (x.mirror p m) (.step p ans) = some ((x.deleteRef obj).mirror p
        (m.stage { f' with i := f'.i + 1 } .test [])) := by
      simp [next, threadStep, blockedStep, eventStep, hmp, Mirror.stage]
    have hn' : next cfg ((x.deleteRef obj).mirror p (m.stage { f' with i := f'.i + 1 } .test []))
        (.step p {}) = some ((x.deleteRef obj).mirror p
          { m with pc := .blocked (.getEvents { f' with i := f'.i + 1 }) }) := by
      simp [next, threadStep, blockedStep, eventStep, hi, hresult, Mirror.stage]
    have hsolo : SoloRun p ((x.deleteRef obj).mirror p (m.stage { f' with i := f'.i + 1 } .test []))
        (.step p {}) := mirror_soloRun rfl
    refine ⟨{ m with pc := .blocked (.getEvents { f' with i := f'.i + 1 }) }, ?_, ?_⟩
    · rw [goto_mirror]
      exact (Reaches.step (.refl _) (h.soloRun hx) hn).step hsolo hn'
    · exact h.leave hpc (State.pc_goto _ _ _) hst.ne_test rfl rfl rfl rfl hst rfl hp rfl

/-- The poller goes through an event that it recognises: nothing else changes. -/
theorem Mirrors.skip {f f' : Frame} {st : Stage} (h : Mirrors p x m)
    (hrec : Recognised x (.step p ans)) (hpc : x.pc p = .blocked (.event f st))
    (hmp : m.pc = .blocked (.getEvents f')) (hp : f'.pending = f.pending)
    (hst : st.skips = true) (hold : (x.events f.i).op ∈ x.handled)
    (hm : EventMoves cfg x p ans f st x') : x'.mirror p m = x.mirror p m ∧ Mirrors p x' m := by
  have hsame : ∀ obs, obs.filterMap Obs.putBack? = [] →
      (x.log ++ obs).filterMap Obs.putBack? = x.handled := by
    intro obs hobs
    rw [List.filterMap_append, hobs, List.append_nil, State.handled]
  -- the mirror waits
  have hgo : ∀ {g : Frame} {st' : Stage}, x'.pc p = .blocked (.event g st') → g.i = f.i →
      g.result = f.result → g.pending = f.pending → st'.skips = true → x'.events = x.events →
      x'.ring = x.ring → x'.delivered = x.delivered → x'.handled = x.handled → Mirrors p x' m := by
    intro g st' hpc' hi hr hgp hst' hxe hxr hxd hh
    refine h.stage hpc hpc' (Stage.ne_test_of_skips hst) (Stage.ne_test_of_skips hst') hi hr hxe hxr
      hxd (.inl hh) ?_ rfl
    rw [hh, hmp]
    refine .repeated g f' st' (hp.trans hgp.symm) hst' ?_
    rw [hi]
    exact hold
  cases hm with
  | synced hsync hfd =>
    exact ⟨goto_mirror _, hgo (State.pc_goto _ _ _) rfl rfl rfl rfl rfl rfl rfl (hsame _ rfl)⟩
  | notSynced hsync | noError hres | errorNull hres hnull =>
    exact ⟨goto_mirror _, hgo (State.pc_goto _ _ _) rfl rfl rfl rfl rfl rfl rfl rfl⟩
  | errorSkipped hres hnull _ | errorCalled hres hnull =>
    exact absurd (hrec.onError hpc hres hold) hnull
  | takenNull hnull =>
    -- `NULL` is written where it is
    refine ⟨?_, hgo (State.pc_goto _ _ _) rfl rfl rfl rfl rfl rfl rfl rfl⟩
    have hiocb : ({ x.iocb (x.events f.i).obj with data := .null } : Iocb) =
        x.iocb (x.events f.i).obj := by rw [← hnull]
    rw [goto_mirror, hiocb]
    simp [State.mirror, State.setIocb]
  | taken hnull => exact absurd (hrec.take hpc hold) hnull
  | warned =>
    exact ⟨goto_mirror _, h.leave hpc (State.pc_goto _ _ _) (Stage.ne_test_of_skips hst) rfl rfl rfl
      (hsame _ rfl) hold hmp hp rfl⟩
  | isStop _ _ | isEvent _ _ | batchEnd _ | stopped | put _ | doneSkipped _ _ | doneCalled _
  | doneThrew _ _ | doneReturned _ _ | released _ _ | notReleased _ _ | refDeleted _ => cases hst

/-- The mirror has read the event `ev`. -/
def Mirror.take (m : Mirror) (ev : IoEvent) (ring : List IoEvent) (g : Frame) (st : Stage) :
    Mirror :=
  { m with
    ring := ring
    pc := .blocked (.event g st)
    events := fun j => ([ev][j]?).getD (m.events j)
    log := m.log ++ [.reaped ev.op] }

/-- The poller goes on in its batch; the mirror reads an event when it is new. -/
theorem Mirrors.test {f f' : Frame} (hq : 0 < cfg.queueSize) (h : Mirrors p x m) (hx : Plain p x)
    (hpc : x.pc p = .blocked (.event f .test)) (hmp : m.pc = .blocked (.getEvents f'))
    (hp : f'.pending = f.pending) (hm : EventMoves cfg x p ans f .test x') :
    ∃ m', Reaches (next cfg) (SoloRun p) (x.mirror p m) (x'.mirror p m') ∧ Mirrors p x' m' := by
  obtain ⟨hqueue, hhand, hseen⟩ := queue_test hpc
  cases hm with
  | isStop hlt hfd =>
    -- the event is one of a request
    refine absurd hfd (hx.delivered _ (h.known _ (List.mem_append_right _ ?_)))
    rw [hqueue, eventsFrom_of_lt hlt]
    exact List.mem_cons_self
  | isEvent hlt hfd =>
    by_cases hold : (x.events f.i).op ∈ x.handled
    · refine ⟨m, ?_, h.come hpc hlt (State.pc_goto _ _ _) rfl rfl rfl rfl ?_ ?_⟩
      · rw [goto_mirror]
        exact .refl _
      · rw [hmp]
        exact .repeated f f' .sync hp rfl hold
      · rw [if_pos hold]
    · -- the event is the oldest one in the ring of the mirror
      have hring := h.ring
      rw [hseen, hqueue, eventsFrom_of_lt hlt, List.cons_append, firsts_cons_of_not_mem hold]
        at hring
      generalize htail : firsts (·.op) ((x.events f.i).op :: x.handled)
        (eventsFrom x.events (f.i + 1) f.result ++ x.ring) = tail at hring
      have hmay : (x.mirror p m).mayReturn cfg.queueSize 1 := by
        refine .inr ⟨by exact_mod_cast hq, ?_⟩
        show 1 ≤ m.ring.length
        rw [hring, List.length_cons]
        omega
      have hn : next cfg (x.mirror p m) (.step p { events := 1 }) = some (x.mirror p
          (m.take (x.events f.i) tail { f' with i := 0, result := 1, lastFile := -1 } .test)) := by
        have hpos : ¬((1 : ℤ) < 0) := by decide
        have hintr : ¬((1 : ℤ) = -EINTR) := by decide
        simp only [next, mirror_pc_self, hmp, threadStep, blockedStep, if_pos hmay, if_neg hpos,
          if_neg hintr]
        rw [mirror_getEvents, mirror_goto, hring]
        rfl
      have hn' : next cfg (x.mirror p (m.take (x.events f.i) tail
          { f' with i := 0, result := 1, lastFile := -1 } .test)) (.step p {}) = some (x.mirror p
          (m.take (x.events f.i) tail { f' with i := 0, result := 1, lastFile := -1 } .sync)) := by
        simp [next, threadStep, blockedStep, eventStep, Mirror.take, hfd]
      have hsolo : SoloRun p (x.mirror p (m.take (x.events f.i) tail
          { f' with i := 0, result := 1, lastFile := -1 } .test)) (.step p {}) := mirror_soloRun rfl
      refine ⟨m.take (x.events f.i) tail { f' with i := 0, result := 1, lastFile := -1 } .sync, ?_,
        h.come hpc hlt (State.pc_goto _ _ _) rfl rfl rfl rfl ?_ ?_⟩
      · rw [goto_mirror]
        exact (Reaches.step (.refl _) (h.soloRun hx) hn).step hsolo hn'
      · exact .fresh f { f' with i := 0, result := 1, lastFile := -1 } .sync hp rfl rfl rfl hold
      · rw [if_neg hold]
        exact hring
  | batchEnd hle =>
    refine ⟨m, ?_, ?_⟩
    · rw [goto_mirror]
      exact .refl _
    · refine h.keep ?_ rfl ?_ (fun o => ?_) rfl ?_
      · rw [State.pc_goto, hmp]
        exact .getEvents _ _ hp
      · rw [hqueue, eventsFrom_of_le hle, State.queue, State.pc_goto]
        rfl
      · rw [State.seen, State.pc_goto, hseen]
        rfl
      · rw [State.pc_goto]
        exact List.forall_mem_nil _

theorem Mirrors.blocked {q : BlockedPc} (hq : 0 < cfg.queueSize) (h : Mirrors p x m)
    (hx : Plain p x) (hmat : Matched (x.mirror p m)) (hrec : Recognised x (.step p ans))
    (hn : next cfg x (.step p ans) = some x') (hpc : x.pc p = .blocked q)
    (hm : BlockedMoves cfg x p ans q x') :
    ∃ m', Reaches (next cfg) (SoloRun p) (x.mirror p m) (x'.mirror p m') ∧ Mirrors p x' m' := by
  have hfol := h.follows
  rw [hpc] at hfol
  generalize hmp : m.pc = q' at hfol
  -- the mirror makes the same step outside a batch
  have hgo : ∀ {r r' : Pc}, x'.pc p = r → (∀ ev, (Pc.blocked q).rest ev = [] ∧
      (Pc.blocked q).atHand ev = []) → (∀ ev, r.rest ev = [] ∧ r.atHand ev = []) →
      next cfg (x.mirror p m) (.step p ans) = some (x'.mirror p { m with pc := r' }) →
      Follows x.handled x.events m.events r r' → x'.events = x.events → x'.ring = x.ring →
      x'.delivered = x.delivered → x'.handled = x.handled →
      ∃ m', Reaches (next cfg) (SoloRun p) (x.mirror p m) (x'.mirror p m') ∧
        Mirrors p x' m' := by
    intro r r' hpc' hold hnew hnext hfol' hev hring hdel hhandled
    exact ⟨_, h.one hx hnext, h.between hpc hpc' hold hnew hfol' hev hring hdel hhandled⟩
  cases hm with
  | locked hlock =>
    cases hfol with
    | lock =>
      refine hgo (State.pc_goto _ _ _) (fun _ => ⟨rfl, rfl⟩) (fun _ => ⟨rfl, rfl⟩) ?_
        (.getEvents _ ⟨0, 0, -1, false, 0⟩ rfl) rfl rfl rfl rfl
      have hlock' : (x.mirror p m).pollLock = none := hlock
      simp only [next, mirror_pc_self, hmp, threadStep, blockedStep, if_pos hlock', goto_mirror]
      exact congrArg some (mirror_goto (x := { x with pollLock := some p }) _)
  | readInterrupted f _ => exact ⟨m, .refl _, h⟩
  | readFailed f hev =>
    have hintr : ans.events ≠ -EINTR := by
      intro he
      simp only [next, hpc, threadStep, blockedStep, he, if_true] at hn
      rw [if_pos (.inl (by decide))] at hn
      have hsame := congrArg (fun y : State Tid => y.pc p) (Option.some.inj hn)
      rw [State.pc_goto, hpc] at hsame
      cases hsame
    cases hfol with
    | getEvents _ f' hp =>
      refine hgo (State.pc_goto _ _ _) (fun _ => ⟨rfl, rfl⟩) (fun _ => ⟨rfl, rfl⟩) ?_ (.unlock _)
        rfl rfl rfl rfl
      have hmay : (x.mirror p m).mayReturn cfg.queueSize ans.events := .inl hev
      simp [next, threadStep, blockedStep, hmp, hmay, hintr, hev]
  | read f k _ hk =>
    cases hfol with
    | getEvents _ f' hp =>
      refine ⟨m, ?_, h.read hpc hmp hp hk⟩
      rw [goto_mirror]
      exact .refl _
  | event f st _ hm =>
    cases hfol with
    | test _ f' hp => exact h.test hq hx hpc hmp hp hm
    | repeated _ f' _ hp hst hold =>
      obtain ⟨hsame, h'⟩ := h.skip hrec hpc hmp hp hst hold hm
      refine ⟨m, ?_, h'⟩
      rw [hsame]
      exact .refl _
    | fresh _ f' _ hp hi hresult hev hst => exact h.answer hx hmat hpc hmp hp hi hresult hev hst hm
  | unlocked o =>
    cases hfol with
    | unlock _ =>
      refine hgo (State.pc_goto _ _ _) (fun _ => ⟨rfl, rfl⟩) (fun _ => ⟨rfl, rfl⟩) ?_ (.idle _) rfl
        rfl rfl rfl
      simp only [next, mirror_pc_self, hmp, threadStep, blockedStep, goto_mirror]
      exact congrArg some (mirror_goto (x := { x with pollLock := none }) _)

/-! ### Runs -/

/-- **Every step is matched by steps without repetitions**, if repetitions are
recognised. -/
theorem Mirrors.step (hq : 0 < cfg.queueSize) (h : Mirrors p x m) (hx : Plain p x)
    (hmat : Matched (x.mirror p m)) (hl : Repeats p l) (hrec : Recognised x l)
    (hn : next cfg x l = some x') :
    ∃ m', Reaches (next cfg) (SoloRun p) (x.mirror p m) (x'.mirror p m') ∧ Mirrors p x' m' := by
  cases next_moves hn with
  | call t o meth _ hpc hm =>
    have hmeth : meth = .poll ∨ ∃ a, meth = .submit a := by
      cases meth with
      | submit a => exact .inr ⟨a, rfl⟩
      | poll => exact .inl rfl
      | pollInto _ _ _ => exact hl.2.1.elim
      | close => exact hl.2.2.1.elim
    have hx' : callStep x t meth = x' := by
      simp only [next, hpc] at hn
      exact Option.some.inj hn
    have hcall := mirror_call cfg (h.pc_of_outside hpc trivial) hmeth
    rw [hx'] at hcall
    refine ⟨_, ?_, h.aside (hm.aside hl hpc)⟩
    exact (Reaches.refl _).step (l := .call t meth) ⟨hl.1, trivial, trivial⟩ hcall
  | submit t ans q _ hpc hm =>
    exact ⟨_, h.one hx (mirror_submit (h.pc_of_outside hpc trivial) hm), h.aside (hm.aside hpc)⟩
  | blocked t ans q _ hpc hm =>
    have ht := hx.calm t
    rw [hpc] at ht
    obtain rfl : t = p := ht
    exact h.blocked hq hx hmat hrec hn hpc hm
  | poll t ans q _ hpc hm =>
    have ht := hx.calm t
    rw [hpc] at ht
    exact ht.elim
  | close t ans q _ hpc hm =>
    have ht := hx.calm t
    rw [hpc] at ht
    exact ht.elim
  | complete k res r hr hres =>
    refine ⟨_, ?_, h.complete hx hr⟩
    refine (Reaches.refl _).step (l := .complete k res) ⟨trivial, trivial, trivial⟩ ?_
    have hr' : (x.mirror p m).inflight[k]? = some r := hr
    simp only [next, completeStep, hr']
    rw [if_pos hres]
    rfl
  | redeliver k ev hev => exact ⟨m, .refl _, h.redeliver hev⟩
  | setForceSyscall value => exact ⟨m, .refl _, ⟨h.follows, h.ring, h.known, h.old, h.kept⟩⟩
  | closeDumbHandlers => exact hl.2.2.1.elim

/-- A state with its mirror, and what holds of that as of all states of runs without
repetitions. -/
structure Mirrored (cfg : Config) (p : Tid) (x : State Tid) (m : Mirror) : Prop where
  plain : Plain p x
  mirrors : Mirrors p x m
  owned : Owned cfg (x.mirror p m)
  matched : Matched (x.mirror p m)
  solo : SoloPoller p (x.mirror p m)

theorem Mirrored.step (hq : 0 < cfg.queueSize) (h : Mirrored cfg p x m) (hl : Repeats p l)
    (hrec : Recognised x l) (hn : next cfg x l = some x') : ∃ m', Mirrored cfg p x' m' := by
  have hfd : l.Submits (·.fd ≠ x.dumbWriteHandler) := by
    cases l with
    | call t meth =>
      cases meth with
      | submit a => exact hrec
      | _ => trivial
    | _ => trivial
  obtain ⟨m', hreach, hmirrors⟩ := h.mirrors.step hq h.plain h.matched hl hrec hn
  have hinv : Owned cfg (x'.mirror p m') ∧ Matched (x'.mirror p m') ∧
      SoloPoller p (x'.mirror p m') := by
    refine hreach.invariant (I := fun s => Owned cfg s ∧ Matched s ∧ SoloPoller p s)
      ⟨h.owned, h.matched, h.solo⟩ ?_
    rintro s l s' ⟨hown, hmat, hsolo⟩ hP hn
    have hal := hsolo.readsAlone l
    exact ⟨hown.step hP.2.1 hal hn, hmat.step hown hP.2.1 hal hn, hsolo.step hP hn⟩
  exact ⟨m', h.plain.step hl hfd hn, hmirrors, hinv.1, hinv.2.1, hinv.2.2⟩

theorem Mirrored.initial (hq : 0 < cfg.queueSize) (p : Tid) (env : Process) :
    ∃ m, Mirrored cfg p (.initial cfg env : State Tid) m := by
  let m : Mirror := ⟨[], .idle .none, env.events, [], env.forceSysCall⟩
  have hsame : (State.initial cfg env : State Tid).mirror p m = .initial cfg env := by
    simp only [State.mirror, State.initial, m, State.mk.injEq, true_and, and_true]
    exact Function.update_eq_self _ _
  refine ⟨m, .initial env, ⟨.idle .none, rfl, List.forall_mem_nil _, List.forall_mem_nil _,
    List.forall_mem_nil _⟩, ?_, ?_, ?_⟩
  · rw [hsame]
    exact .initial hq env
  · rw [hsame]
    exact .initial env
  · rw [hsame]
    exact .initial env

end ArtemisNative
