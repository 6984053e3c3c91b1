/-
ArtemisNative/Reaping.lean

A context whose completion ring is memory.

In `Methods` a call of `ringio_get_events` is one step, which takes events from a
list.  In the program it is many: the caller looks at the ring, copies slot after
slot and stores `head`, or goes on to `io_getevents`, while the kernel writes
slots and moves `tail`, and while all the other threads go on.  `Machine` is the
context with the call taken apart in this way: its ring is the one of
`RingState`, and the events buffer gets what the copy loop has read, not what an
abstract queue says.

To a user of the context this makes no difference (`machine_simulates`): the
machine is one way to run the context, where a completion counts from the moment
the kernel moves `tail`, and a read from the moment its caller stores `head`.  So
it is a completion queue, too (`machine_is_completion_queue`).

Two threads must not be in the call at the same time, for the library takes itself
to be the only one that writes `head`.  That is asked of the callers (`Reads`), as
is that nobody is in the call when `io_queue_release` unmaps the ring.
-/
import ArtemisNative.Ring
import ArtemisNative.Completions

namespace ArtemisNative

open Cyclic Transition

variable {Tid : Type} [DecidableEq Tid] {cfg : Config} {s s' : State Tid} {t u : Tid} {p q : Pc}
variable {ans : Answer} {l : Label Tid}

/-! ### What a step has to do with the ring -/

/-- The state with another completion ring. -/
def State.withRing (s : State Tid) (ring : List IoEvent) : State Tid := { s with ring := ring }

/-- The step is one of the kernel, or a call of `ringio_get_events`. -/
def State.atRing (s : State Tid) : Label Tid → Bool
  | .step t _ => (s.pc t).atRead
  | .complete _ _ | .redeliver _ => true
  | _ => false

/-- The step is `io_queue_release`. -/
def State.atRelease (s : State Tid) : Label Tid → Bool
  | .step t _ => decide (s.pc t = .close .queueRelease)
  | _ => false

/-! In each branch of a step function: the ring is not looked at. -/

theorem submitStep_withRing {q : SubmitPc} (ring : List IoEvent)
    (hn : submitStep cfg s t ans q = some s') :
    submitStep cfg (s.withRing ring) t ans q = some (s'.withRing ring) := by
  cases q <;> simp only [submitStep] at hn <;> (repeat' split at hn) <;> cases hn <;>
    simp only [submitStep, State.withRing] <;> simp [*] <;> rfl

theorem eventStep_withRing {f : Frame} {st : Stage} (ring : List IoEvent)
    (hn : eventStep cfg s t ans f st = some s') :
    eventStep cfg (s.withRing ring) t ans f st = some (s'.withRing ring) := by
  cases st <;> simp only [eventStep] at hn <;> (repeat' split at hn) <;> cases hn <;>
    simp only [eventStep, State.withRing] <;> simp [*] <;> rfl

theorem blockedStep_withRing {q : BlockedPc} (ring : List IoEvent)
    (hq : (Pc.blocked q).atRead = false) (hn : blockedStep cfg s t ans q = some s') :
    blockedStep cfg (s.withRing ring) t ans q = some (s'.withRing ring) := by
  cases q with
  | event f st => exact eventStep_withRing ring hn
  | lock =>
    simp only [blockedStep] at hn
    split at hn <;> cases hn
    next hfree => exact if_pos hfree
  | unlock o =>
    obtain rfl := Option.some.inj hn
    rfl
  | getEvents f => cases hq

theorem pollStep_withRing {q : PollPc} (ring : List IoEvent) (hq : (Pc.poll q).atRead = false)
    (hn : pollStep cfg s t ans q = some s') :
    pollStep cfg (s.withRing ring) t ans q = some (s'.withRing ring) := by
  rcases q with ⟨cs, min, max⟩ | ⟨f, st⟩ | ⟨n, cs, pending⟩
  · cases hq
  · cases st <;> simp only [pollStep] at hn <;> (repeat' split at hn) <;> cases hn <;>
      simp only [pollStep, State.withRing] <;> simp [*] <;> rfl
  · simp only [pollStep] at hn
    (repeat' split at hn) <;> cases hn <;>
      simp only [pollStep, State.withRing] <;> simp [*] <;> rfl

theorem closeStep_withRing {q : ClosePc} (ring : List IoEvent) (hq : (Pc.close q).atRead = false)
    (hrel : q ≠ .queueRelease) (hn : closeStep cfg s t ans q = some s') :
    closeStep cfg (s.withRing ring) t ans q = some (s'.withRing ring) := by
  cases q with
  | getEvents => cases hq
  | queueRelease => exact absurd rfl hrel
  | _ =>
    simp only [closeStep] at hn
    (repeat' split at hn) <;> cases hn <;> simp only [closeStep, State.withRing] <;>
      simp [*] <;> rfl

/-- **Only the kernel, the pollers' reads and `io_queue_release` look at the ring.** -/
theorem next_withRing (ring : List IoEvent) (hat : s.atRing l = false)
    (hrel : s.atRelease l = false) (hn : next cfg s l = some s') :
    next cfg (s.withRing ring) l = some (s'.withRing ring) := by
  cases l with
  | call t m =>
    simp only [next] at hn
    split at hn
    · next o hpc =>
      obtain rfl := Option.some.inj hn
      simp only [next, State.withRing, hpc]
      cases m <;> simp only [callStep] <;> (try split) <;> rfl
    · cases hn
  | step t ans =>
    have hat : (s.pc t).atRead = false := hat
    have hrel : s.pc t ≠ .close .queueRelease := of_decide_eq_false hrel
    simp only [next] at hn
    show threadStep cfg (s.withRing ring) t ans (s.pc t) = _
    rcases hpc : s.pc t with o | q | q | q | q
    all_goals rw [hpc] at hn hat hrel
    · cases hn
    · exact submitStep_withRing ring hn
    · exact blockedStep_withRing ring hat hn
    · exact pollStep_withRing ring hat hn
    · exact closeStep_withRing ring hat (fun he => hrel (he ▸ rfl)) hn
  | complete k res => cases hat
  | redeliver k => cases hat
  | setForceSyscall value =>
    obtain rfl := Option.some.inj hn
    rfl
  | closeDumbHandlers =>
    obtain rfl := Option.some.inj hn
    rfl

/-- An empty ring stays empty. -/
theorem next_unused (hunused : s.ring = []) (hat : s.atRing l = false)
    (hrel : s.atRelease l = false) (hn : next cfg s l = some s') : s'.ring = [] := by
  have hsame : s.withRing [] = s := by
    rw [← hunused]
    rfl
  have hempty := next_withRing [] hat hrel hn
  rw [hsame, hn] at hempty
  exact congrArg (·.ring) (Option.some.inj hempty)

/-- `io_queue_release` leaves no ring. -/
theorem next_release (ring : List IoEvent) (hrel : s.atRelease l = true)
    (hn : next cfg s l = some s') :
    next cfg (s.withRing ring) l = some s' ∧ s'.ring = [] := by
  cases l with
  | step t ans =>
    have hpc : s.pc t = .close .queueRelease := of_decide_eq_true hrel
    simp only [next, hpc, threadStep, closeStep] at hn
    obtain rfl := Option.some.inj hn
    refine ⟨?_, rfl⟩
    show threadStep cfg (s.withRing ring) t ans (s.pc t) = _
    rw [hpc]
    rfl
  | _ => cases hrel

/-! ### Reads -/

/-- The arguments `min_nr` and `max` of the call of `ringio_get_events`. -/
def Pc.reads (cfg : Config) : Pc → Option (ℤ × ℤ)
  | .blocked (.getEvents _) => some (1, cfg.queueSize)
  | .poll (.getEvents _ min max) => some (min, max)
  | .close .getEvents => some (0, 1)
  | _ => none

theorem Pc.atRead_of_reads {r : ℤ × ℤ} (hq : q.reads cfg = some r) : q.atRead = true := by
  cases q with
  | idle o => cases hq
  | submit q => cases hq
  | blocked q =>
    cases q with
    | getEvents f => rfl
    | _ => cases hq
  | poll q =>
    cases q with
    | getEvents callbacks min max => rfl
    | _ => cases hq
  | close q =>
    cases q with
    | getEvents => rfl
    | _ => cases hq

omit [DecidableEq Tid] in
/-- The events that are read are all that a read depends on. -/
theorem getEvents_withRing {evs ring : List IoEvent} (obs : ℕ → Obs)
    (hevs : evs = ring.take evs.length) :
    (s.withRing ring).getEvents evs.length obs
      = ((s.withRing evs).getEvents evs.length obs).withRing (ring.drop evs.length) := by
  simp only [State.getEvents, State.withRing, ← hevs, List.take_length]

/-- Where the caller of `ringio_get_events` goes with `n` events. -/
def Pc.received (n : ℕ) : Pc → Pc
  | .blocked (.getEvents f) =>
    .blocked (.event { f with i := 0, result := n, lastFile := -1 } .test)
  | .poll (.getEvents callbacks _ _) => .poll (.event ⟨0, n, callbacks, false⟩ .onError)
  | .close .getEvents => .close (.put 0 n)
  | p => p

/-- How it says that it has read an event. -/
def Pc.readObs : Pc → ℕ → Obs
  | .blocked _ => .reaped
  | .poll _ => .polled
  | _ => .discarded

/-- A call that returns `n` events. -/
theorem next_read {n : ℕ} {min max : ℤ} (hr : (s.pc t).reads cfg = some (min, max))
    (hmax : (n : ℤ) ≤ max) (hlen : n ≤ s.ring.length) :
    next cfg s (.step t { events := n })
      = some ((s.getEvents n (s.pc t).readObs).goto t ((s.pc t).received n)) := by
  have hpos : ¬(n : ℤ) < 0 := by omega
  show threadStep cfg s t { events := n } (s.pc t) = _
  rcases hpc : s.pc t with o | q | q | q | q
  all_goals rw [hpc] at hr
  · cases hr
  · cases hr
  · cases q with
    | getEvents f =>
      have hmay : s.mayReturn cfg.queueSize n := by
        cases hr
        exact .inr ⟨hmax, hlen⟩
      have hint : ¬(n : ℤ) = -EINTR := by
        unfold EINTR
        omega
      show (if _ then _ else _) = _
      rw [if_pos hmay, if_neg hint, if_neg hpos]
      rfl
    | _ => cases hr
  · cases q with
    | getEvents callbacks min' max' =>
      have hmay : s.mayReturn max' n := by
        cases hr
        exact .inr ⟨hmax, hlen⟩
      show (if _ then _ else _) = _
      rw [if_pos hmay, if_neg hpos]
      rfl
    | _ => cases hr
  · cases q with
    | getEvents =>
      have hmay : s.mayReturn 1 n := by
        cases hr
        exact .inr ⟨hmax, hlen⟩
      show (if _ then _ else _) = _
      rw [if_pos hmay, if_neg hpos]
      rfl
    | _ => cases hr

/-- A call that fails leaves the ring alone. -/
theorem next_read_failed {e : ℤ} {r : ℤ × ℤ} (ring : List IoEvent)
    (hr : (s.pc t).reads cfg = some r) (he : e < 0) :
    ∃ s', next cfg s (.step t { events := e }) = some s' ∧ s'.ring = s.ring ∧
      next cfg (s.withRing ring) (.step t { events := e }) = some (s'.withRing ring) := by
  have hmay : ∀ (x : State Tid) max, x.mayReturn max e := fun _ _ => .inl he
  show ∃ s', threadStep cfg s t { events := e } (s.pc t) = some s' ∧ _ ∧
    threadStep cfg (s.withRing ring) t { events := e } (s.pc t) = _
  rcases hpc : s.pc t with o | q | q | q | q
  all_goals rw [hpc] at hr
  · cases hr
  · cases hr
  · cases q with
    | getEvents f =>
      by_cases hint : e = -EINTR
      · refine ⟨s, ?_, rfl, ?_⟩ <;> show (if _ then _ else _) = _ <;>
          rw [if_pos (hmay _ _), if_pos hint]
      · refine ⟨s.goto t (.blocked (.unlock (.threw (.polling (-e))))), ?_, rfl, ?_⟩ <;>
          show (if _ then _ else _) = _ <;> rw [if_pos (hmay _ _), if_neg hint, if_pos he]
        rfl
    | _ => cases hr
  · cases q with
    | getEvents callbacks min' max' =>
      refine ⟨s.goto t (.poll (.release e callbacks false)), ?_, rfl, ?_⟩ <;>
        show (if _ then _ else _) = _ <;> rw [if_pos (hmay _ _), if_pos he]
      rfl
    | _ => cases hr
  · cases q with
    | getEvents =>
      refine ⟨s.goto t (.close .queueRelease), ?_, rfl, ?_⟩ <;>
        show (if _ then _ else _) = _ <;> rw [if_pos (hmay _ _), if_pos he]
      rfl
    | _ => cases hr

/-! ### The steps of the one who reads -/

namespace RingState

variable {α : Type} {r r' : RingState α} {k : ℕ} {event : α}

/-- The argument `max` of the call the reader is in. -/
def max? (r : RingState α) : Option ℤ :=
  match r.pc with
  | .idle => none
  | .start _ max _ | .loadHead _ max _ | .loadTail _ max _ _ | .copy max _ _ _ _
  | .io_getevents max => some max

/-- The call returns the events `evs`, and they are the oldest ones. -/
structure Returned (r r' : RingState α) (evs : List α) : Prop where
  idle : r'.pc = .idle
  returned : r'.returned = r.returned ++ evs
  oldest : evs = r.ring.pending.take evs.length
  rest : r'.ring.pending = r.ring.pending.drop evs.length
  fits : ∀ max, r.max? = some max → (evs.length : ℤ) ≤ max

theorem Returned.of_pop (hin : r.ring.Inside) (hk : k ≤ r.ring.count)
    (hfits : ∀ max, r.max? = some max → (k : ℤ) ≤ max) :
    Returned r { r with
      ring := { r.ring with head := (r.ring.head + k) % r.ring.nr }
      pc := .idle
      returned := r.returned ++ r.ring.pending.take k } (r.ring.pending.take k) := by
  have hlen : (r.ring.pending.take k).length = k := by
    rw [List.length_take, AioRing.pending, length_window]
    omega
  refine ⟨rfl, rfl, by rw [hlen], ?_, by rw [hlen]; exact hfits⟩
  rw [hlen]
  exact (hin.advance_head hk).2

/-- A step in user space leaves the ring as it is, or it is the last of the call. -/
theorem Sound.step_cases (h : r.Sound) (hn : ringNext r .step = some r') :
    (r'.pc ≠ .idle ∧ r'.max? = r.max? ∧ r'.ring = r.ring) ∨ ∃ evs, Returned r r' evs := by
  obtain ⟨hin, -, hknows⟩ := h
  simp only [ringNext] at hn
  rcases hpc : r.pc with - | ⟨min_nr, max, timeout⟩ | ⟨min_nr, max, timeout⟩ |
    ⟨min_nr, max, timeout, head⟩ | ⟨max, head, n, needMod, events⟩ | max <;>
    rw [hpc] at hn hknows
  · cases hn
  · simp only [reaperStep] at hn
    split at hn <;> obtain rfl := Option.some.inj hn <;>
      exact .inl ⟨(fun he => by cases he), by rw [max?, max?, hpc], rfl⟩
  · obtain rfl := Option.some.inj hn
    exact .inl ⟨(fun he => by cases he), by rw [max?, max?, hpc], rfl⟩
  · simp only [reaperStep] at hn
    split at hn <;> obtain rfl := Option.some.inj hn
    · -- nothing is there
      refine .inr ⟨[], rfl, (List.append_nil _).symm, rfl, rfl, fun max' hmax => ?_⟩
      rw [max?, hpc] at hmax
      obtain rfl := Option.some.inj hmax
      exact hknows.1.1.trans hknows.1.2
    · exact .inl ⟨(fun he => by cases he), by rw [max?, max?, hpc], rfl⟩
    · exact .inl ⟨(fun he => by cases he), by rw [max?, max?, hpc], rfl⟩
  · obtain ⟨hcount, hmax, hlen, -, hcur, hev⟩ := hknows
    simp only [reaperStep] at hn
    split at hn <;> obtain rfl := Option.some.inj hn
    · exact .inl ⟨(fun he => by cases he), by rw [max?, max?, hpc], rfl⟩
    · have hret := Returned.of_pop (k := events.length) hin (by omega) fun max' hmax' => by
        rw [max?, hpc] at hmax'
        obtain rfl := Option.some.inj hmax'
        omega
      rw [← hcur, ← hev] at hret
      exact .inr ⟨events, hret⟩
  · cases hn

theorem Sound.io_getevents_returns (h : r.Sound) (hn : ringNext r (.io_getevents k) = some r') :
    ∃ evs, Returned r r' evs := by
  simp only [ringNext] at hn
  split at hn
  · rename_i max hpc
    split at hn
    · rename_i hk
      obtain rfl := Option.some.inj hn
      refine ⟨_, Returned.of_pop h.inside hk.2 fun max' hmax => ?_⟩
      rw [max?, hpc] at hmax
      obtain rfl := Option.some.inj hmax
      exact hk.1
    · cases hn
  · cases hn

/-- Writing a slot shows nothing. -/
theorem Sound.write_keeps (h : r.Sound) (hn : ringNext r (.write event) = some r') :
    r'.ring.pending = r.ring.pending ∧ r'.pc = r.pc := by
  simp only [ringNext] at hn
  split at hn
  · obtain rfl := Option.some.inj hn
    exact ⟨window_update_of_ne fun i hi => h.inside.slot_ne_tail hi, rfl⟩
  · cases hn

/-- Moving `tail` shows the slot that has been written. -/
theorem Sound.publish_adds (h : r.Sound) (hn : ringNext r .publish = some r') :
    r'.ring.pending = r.ring.pending ++ [r.ring.io_events r.ring.tail] ∧ r'.pc = r.pc := by
  simp only [ringNext] at hn
  split at hn
  · rename_i hw
    obtain rfl := Option.some.inj hn
    exact ⟨(h.inside.advance_tail (h.room hw)).2.2, rfl⟩
  · cases hn

theorem call_enters {min max : ℤ} (hn : ringNext r (.call min max none) = some r') :
    r'.max? = some max ∧ r'.ring = r.ring := by
  simp only [ringNext] at hn
  split at hn
  · split at hn
    · obtain rfl := Option.some.inj hn
      exact ⟨rfl, rfl⟩
    · cases hn
  · cases hn

/-- The ring after `io_queue_release`: there is none. -/
def unmap (r : RingState α) : RingState α :=
  { r with ring := { r.ring with head := r.ring.tail }, written := false }

theorem Sound.unmap (h : r.Sound) (hidle : r.pc = .idle) :
    r.unmap.Sound ∧ r.unmap.ring.pending = [] := by
  have hin : r.unmap.ring.Inside := ⟨h.inside.nr_lt, h.inside.tail_lt, h.inside.tail_lt⟩
  have hcount : r.unmap.ring.count = 0 := by
    rw [hin.count_eq]
    show (if r.ring.tail ≤ r.ring.tail then r.ring.tail - r.ring.tail else _) = 0
    rw [if_pos le_rfl, Nat.sub_self]
  refine ⟨⟨hin, fun hw => absurd hw Bool.false_ne_true, ?_⟩, ?_⟩
  · show r.pc.Knows _
    rw [hidle]
    trivial
  · rw [AioRing.pending, hcount]
    rfl

theorem Sound.setForceSyscall (h : r.Sound) (value : Bool) :
    ({ r with forceSysCall := value } : RingState α).Sound :=
  ⟨h.inside, h.room, h.knows⟩

end RingState

/-! ### The machine -/

/-- A context, the ring in memory, and the thread that is inside
`ringio_get_events`.  The list `base.ring` is not used. -/
structure Machine (Tid : Type) where
  base : State Tid
  ring : RingState IoEvent
  reader : Option Tid

inductive MachineLabel (Tid : Type)
  /-- any step that has nothing to do with the ring -/
  | move (l : Label Tid)
  /-- the kernel writes a slot, and moves `tail`: the `k`-th request in flight is
  completed, or the `k`-th event delivered again -/
  | write (ev : IoEvent)
  | publish (k : ℕ)
  | republish (k : ℕ)
  /-- thread `t` calls `ringio_get_events`; the caller goes on there, or
  `io_getevents` returns with `k` events or an error -/
  | enter (t : Tid)
  | reap
  | io_getevents (k : ℕ)
  | fail (e : ℤ)

/-- The call returns to the reader. -/
def Machine.returns (cfg : Config) (m : Machine Tid) (ring : RingState IoEvent) (result : ℤ)
    (evs : List IoEvent) : Option (Machine Tid) :=
  match m.reader with
  | none => none
  | some t => (next cfg (m.base.withRing evs) (.step t { events := result })).map (⟨·, ring, none⟩)

/-- What the reader has read in the step to `ring`. -/
def Machine.readIn (m : Machine Tid) (ring : RingState IoEvent) : List IoEvent :=
  ring.returned.drop m.ring.returned.length

def machineNext (cfg : Config) (m : Machine Tid) : MachineLabel Tid → Option (Machine Tid)
  | .move l =>
    if m.base.atRing l then none
    else
      (next cfg m.base l).map fun s =>
        { m with
          base := s
          ring := if m.base.atRelease l then m.ring.unmap
            else { m.ring with forceSysCall := s.forceSysCall } }
  | .write ev => (ringNext m.ring (.write ev)).map ({ m with ring := · })
  | .publish k =>
    let ev := m.ring.ring.io_events m.ring.ring.tail
    match m.base.inflight[k]? with
    | none => none
    | some r =>
      if ev.obj = r.obj ∧ ev.op = r.op then
        (ringNext m.ring .publish).bind fun ring =>
          (completeStep m.base k ev.res).map fun s => { m with base := s.withRing [], ring := ring }
      else none
  | .republish k =>
    if m.base.delivered[k]? = some (m.ring.ring.io_events m.ring.ring.tail) then
      (ringNext m.ring .publish).map ({ m with ring := · })
    else none
  | .enter t =>
    match (m.base.pc t).reads cfg, m.reader with
    | some (min, max), none =>
      (ringNext m.ring (.call min max none)).map ({ m with ring := ·, reader := some t })
    | _, _ => none
  | .reap =>
    (ringNext m.ring .step).bind fun ring =>
      match ring.pc with
      | .idle => m.returns cfg ring (m.readIn ring).length (m.readIn ring)
      | _ => some { m with ring := ring }
  | .io_getevents k =>
    (ringNext m.ring (.io_getevents k)).bind fun ring =>
      m.returns cfg ring (m.readIn ring).length (m.readIn ring)
  | .fail e =>
    match m.ring.pc with
    | .io_getevents _ => if e < 0 then m.returns cfg { m.ring with pc := .idle } e [] else none
    | _ => none

/-- A context with an empty ring. -/
def Machine.initial (cfg : Config) (env : Process) (ring : AioRing IoEvent) : Machine Tid :=
  ⟨.initial cfg env, .initial ring env.forceSysCall, none⟩

/-- The context as its users see it. -/
def Machine.view (m : Machine Tid) : State Tid := m.base.withRing m.ring.ring.pending

/-! ### The simulation -/

structure Machine.Sound (cfg : Config) (m : Machine Tid) : Prop where
  ring : m.ring.Sound
  unused : m.base.ring = []
  idle : m.reader = none → m.ring.pc = .idle
  /-- the thread in the call is where it called, and alone -/
  reading : ∀ t, m.reader = some t → ∃ min max, (m.base.pc t).reads cfg = some (min, max) ∧
    m.ring.max? = some max ∧ ∀ u, u ≠ t → (m.base.pc u).inBatch = false

/-- The assumptions: labels that satisfy `P`, no two threads at a time in the call or
in the loop over what it has read, and nobody in the call when the ring is unmapped. -/
def Reads (P : Label Tid → Prop) (m : Machine Tid) : MachineLabel Tid → Prop
  | .move l => P l ∧ (m.base.atRelease l = true → m.reader = none)
  | .publish k => P (.complete k (m.ring.ring.io_events m.ring.ring.tail).res)
  | .republish k => P (.redeliver k)
  | .enter t => ∀ u, u ≠ t → (m.base.pc u).inBatch = false
  | _ => True

instance [Fintype Tid] (P : Label Tid → Prop) [DecidablePred P] (m : Machine Tid) :
    DecidablePred (Reads P m)
  | .move l => inferInstanceAs (Decidable (P l ∧ (m.base.atRelease l = true → m.reader = none)))
  | .publish k =>
    inferInstanceAs (Decidable (P (.complete k (m.ring.ring.io_events m.ring.ring.tail).res)))
  | .republish k => inferInstanceAs (Decidable (P (.redeliver k)))
  | .enter t => inferInstanceAs (Decidable (∀ u, u ≠ t → (m.base.pc u).inBatch = false))
  | .write _ | .reap | .io_getevents _ | .fail _ => isTrue trivial

namespace Machine

variable {m m' : Machine Tid} {P : Label Tid → Prop} {ring : RingState IoEvent}

omit [DecidableEq Tid] in
theorem Sound.keep (h : m.Sound cfg) (hring : ring.Sound) (hpc : ring.pc = m.ring.pc) :
    Sound cfg { m with ring := ring } where
  ring := hring
  unused := h.unused
  idle := fun hnone => hpc.trans (h.idle hnone)
  reading := by
    intro t ht
    obtain ⟨min, max, hr, hmax, hout⟩ := h.reading t ht
    refine ⟨min, max, hr, ?_, hout⟩
    rw [RingState.max?, hpc]
    exact hmax

/-- The thread in the call does not move, and no other one enters a loop. -/
theorem Sound.reading_move (h : m.Sound cfg) (hat : m.base.atRing l = false)
    (hn : next cfg m.base l = some s') (ht : m.reader = some t) :
    s'.pc t = m.base.pc t ∧ ∀ u, u ≠ t → (s'.pc u).inBatch = false := by
  obtain ⟨min, max, hr, -, hout⟩ := h.reading t ht
  have hread := Pc.atRead_of_reads hr
  constructor
  · refine next_pc_of_ne hn fun hl => ?_
    cases l with
    | call t' method =>
      obtain rfl := Option.some.inj hl
      cases next_moves hn with
      | call _ o _ _ hpc _ =>
        rw [hpc] at hread
        cases hread
    | step t' ans =>
      obtain rfl := Option.some.inj hl
      rw [show m.base.atRing (.step t' ans) = (m.base.pc t').atRead from rfl, hread] at hat
      cases hat
    | _ => cases hl
  · intro u hu
    refine Bool.eq_false_iff.mpr fun hin => ?_
    rcases next_inBatch hn hin with hin | ⟨⟨ans, rfl⟩, hat'⟩
    · rw [hout u hu] at hin
      cases hin
    · rw [show m.base.atRing (.step u ans) = (m.base.pc u).atRead from rfl, hat'] at hat
      cases hat

/-- A step that has nothing to do with the ring. -/
theorem Sound.move (h : m.Sound cfg) (hat : m.base.atRing l = false)
    (hrel : m.base.atRelease l = true → m.reader = none)
    (hn : next cfg m.base l = some s') :
    let m' : Machine Tid := { m with
      base := s'
      ring := if m.base.atRelease l then m.ring.unmap
        else { m.ring with forceSysCall := s'.forceSysCall } }
    m'.Sound cfg ∧ next cfg m.view l = some m'.view := by
  by_cases hr : m.base.atRelease l = true
  · have hidle := h.idle (hrel hr)
    obtain ⟨hsound, hempty⟩ := h.ring.unmap hidle
    obtain ⟨hview, hnil⟩ := next_release m.ring.ring.pending hr hn
    have hnone : ∀ t, m.reader ≠ some t := fun t ht => by rw [hrel hr] at ht; cases ht
    simp only [hr, if_true]
    refine ⟨⟨hsound, hnil, fun _ => hidle, fun t ht => absurd ht (hnone t)⟩, ?_⟩
    show next cfg (m.base.withRing _) l = some (s'.withRing _)
    rw [hview, hempty, ← hnil]
    rfl
  · have hr' := Bool.eq_false_iff.mpr hr
    have hview := next_withRing m.ring.ring.pending hat hr' hn
    simp only [hr', Bool.false_eq_true, if_false]
    refine ⟨⟨h.ring.setForceSyscall _, next_unused h.unused hat hr' hn, h.idle, fun t ht => ?_⟩,
      hview⟩
    obtain ⟨hpc, hout⟩ := h.reading_move hat hn ht
    obtain ⟨min, max, hr, hmax, -⟩ := h.reading t ht
    exact ⟨min, max, hpc ▸ hr, hmax, hout⟩

/-- The call returns: what it has read is what one atomic read would have read. -/
theorem Sound.returned {evs : List IoEvent} (h : m.Sound cfg) (hring : ring.Sound)
    (hret : RingState.Returned m.ring ring evs) (ht : m.reader = some t) :
    ∃ m', m.returns cfg ring (m.readIn ring).length (m.readIn ring) = some m' ∧ m'.Sound cfg ∧
      ReadsAlone m.view (.step t { events := evs.length }) ∧
      next cfg m.view (.step t { events := evs.length }) = some m'.view := by
  obtain ⟨min, max, hr, hmax, hout⟩ := h.reading t ht
  have hread : m.readIn ring = evs := by
    rw [readIn, hret.returned, List.drop_left]
  have hfits := hret.fits max hmax
  have hle : evs.length ≤ m.ring.ring.pending.length := by
    have := congrArg List.length hret.oldest
    rw [List.length_take] at this
    omega
  have hstep := next_read (s := m.base.withRing evs) hr hfits le_rfl
  have hview := next_read (s := m.view) hr hfits hle
  refine ⟨⟨((m.base.withRing evs).getEvents evs.length (m.base.pc t).readObs).goto t
    ((m.base.pc t).received evs.length), ring, none⟩, ?_,
    ⟨hring, ?_, fun _ => hret.idle, fun u hu => by cases hu⟩, fun _ => hout, ?_⟩
  · rw [hread, returns, ht]
    show (next cfg _ _).map _ = _
    rw [hstep]
    rfl
  · exact List.drop_length
  · rw [hview]
    refine congrArg some ?_
    have hevents := getEvents_withRing (s := m.base) (m.base.pc t).readObs hret.oldest
    show ((m.base.withRing _).getEvents evs.length _).goto t _ = _
    rw [show (m.view.pc t).readObs = (m.base.pc t).readObs from rfl, hevents, ← hret.rest]
    rfl

/-- The call fails, and nothing has been read. -/
theorem Sound.failed {e : ℤ} (h : m.Sound cfg) (he : e < 0) (ht : m.reader = some t)
    (hn : m.returns cfg { m.ring with pc := .idle } e [] = some m') :
    m'.Sound cfg ∧ ReadsAlone m.view (.step t { events := e }) ∧
      next cfg m.view (.step t { events := e }) = some m'.view := by
  obtain ⟨min, max, hr, -, hout⟩ := h.reading t ht
  obtain ⟨s', hs', hring, hview⟩ := next_read_failed (s := m.base.withRing [])
    m.ring.ring.pending hr he
  rw [returns, ht] at hn
  obtain ⟨x, hx, rfl⟩ := Option.map_eq_some_iff.mp hn
  obtain rfl := Option.some.inj (hs'.symm.trans hx)
  refine ⟨⟨⟨h.ring.inside, h.ring.room, trivial⟩, hring, fun _ => rfl, fun u hu => by cases hu⟩,
    fun _ => hout, hview⟩

/-- The kernel completes a request where it moves `tail`. -/
theorem Sound.publish {k : ℕ} {r : Request} (h : m.Sound cfg) (hr : m.base.inflight[k]? = some r)
    (hobj : (m.ring.ring.io_events m.ring.ring.tail).obj = r.obj)
    (hop : (m.ring.ring.io_events m.ring.ring.tail).op = r.op)
    (hpub : ringNext m.ring .publish = some ring)
    (hn : completeStep m.base k (m.ring.ring.io_events m.ring.ring.tail).res = some s') :
    let m' : Machine Tid := { m with base := s'.withRing [], ring := ring }
    m'.Sound cfg ∧
      next cfg m.view (.complete k (m.ring.ring.io_events m.ring.ring.tail).res) =
        some m'.view := by
  obtain ⟨hpend, hpc⟩ := h.ring.publish_adds hpub
  have hsound := (h.ring.refines hpub).1
  have hev : (⟨r.obj, (m.ring.ring.io_events m.ring.ring.tail).res, r.op⟩ : IoEvent)
      = m.ring.ring.io_events m.ring.ring.tail := by
    rw [← hobj, ← hop]
  simp only [completeStep, hr] at hn
  split at hn
  · rename_i hrange
    obtain rfl := Option.some.inj hn
    refine ⟨⟨hsound, rfl, fun hnone => hpc.trans (h.idle hnone), fun t ht => ?_⟩, ?_⟩
    · obtain ⟨min, max, hreads, hmax, hout⟩ := h.reading t ht
      refine ⟨min, max, hreads, ?_, hout⟩
      rw [RingState.max?, hpc]
      exact hmax
    · show completeStep m.view k _ = _
      simp only [completeStep, view, State.withRing, hr, hrange, and_self, if_true]
      refine congrArg some ?_
      simp only [State.complete, hev, hpend]
  · cases hn

omit [DecidableEq Tid] in
/-- A thread enters the call alone. -/
theorem Sound.enter {min max : ℤ} (h : m.Sound cfg)
    (hr : (m.base.pc t).reads cfg = some (min, max))
    (hout : ∀ u, u ≠ t → (m.base.pc u).inBatch = false)
    (hcall : ringNext m.ring (.call min max none) = some ring) :
    let m' : Machine Tid := { m with ring := ring, reader := some t }
    m'.Sound cfg ∧ m'.view = m.view := by
  obtain ⟨hmax, hring⟩ := RingState.call_enters hcall
  refine ⟨⟨(h.ring.refines hcall).1, h.unused, fun hnone => absurd hnone (Option.some_ne_none t),
    fun u hu => ?_⟩, ?_⟩
  · obtain rfl := Option.some.inj hu
    exact ⟨min, max, hr, hmax, hout⟩
  · show m.base.withRing ring.ring.pending = _
    rw [hring]
    rfl

/-- Nothing that a user of the context can see. -/
theorem hidden (P : Label Tid → Prop) (hview : m'.view = m.view) (hsound : m'.Sound cfg) :
    ∃ x, Reaches (next cfg) (fun s l => P l ∧ ReadsAlone s l) m.view x ∧
      m'.Sound cfg ∧ x = m'.view :=
  ⟨m.view, .refl _, hsound, hview.symm⟩

/-- One step of the context. -/
theorem shown (hP : P l) (hal : ReadsAlone m.view l) (hn : next cfg m.view l = some m'.view)
    (hsound : m'.Sound cfg) :
    ∃ x, Reaches (next cfg) (fun s l => P l ∧ ReadsAlone s l) m.view x ∧
      m'.Sound cfg ∧ x = m'.view :=
  ⟨m'.view, .head (P := fun s l => P l ∧ ReadsAlone s l) ⟨hP, hal⟩ hn (.refl _), hsound, rfl⟩

/-- **The machine is one way to run the context.** -/
theorem Sound.step {ml : MachineLabel Tid} (hP : ∀ t e, P (.step t { events := e }))
    (h : m.Sound cfg) (hl : Reads P m ml) (hn : machineNext cfg m ml = some m') :
    ∃ x, Reaches (next cfg) (fun s l => P l ∧ ReadsAlone s l) m.view x ∧
      m'.Sound cfg ∧ x = m'.view := by
  cases ml with
  | move l =>
    simp only [machineNext] at hn
    split at hn
    · cases hn
    · rename_i hat
      obtain ⟨s', hs', rfl⟩ := Option.map_eq_some_iff.mp hn
      have hat := Bool.eq_false_iff.mpr hat
      obtain ⟨hsound, hview⟩ := h.move hat hl.2 hs'
      refine shown hl.1 ?_ hview hsound
      cases l with
      | step t ans =>
        intro hread
        rw [show (m.view.pc t).atRead = m.base.atRing (.step t ans) from rfl, hat] at hread
        cases hread
      | _ => trivial
  | write ev =>
    obtain ⟨ring, hring, rfl⟩ := Option.map_eq_some_iff.mp hn
    obtain ⟨hpend, hpc⟩ := h.ring.write_keeps hring
    refine hidden P ?_ (h.keep (h.ring.refines hring).1 hpc)
    show m.base.withRing ring.ring.pending = _
    rw [hpend]
    rfl
  | publish k =>
    simp only [machineNext] at hn
    split at hn
    · cases hn
    · rename_i r hr
      split at hn
      · rename_i hev
        obtain ⟨ring, hpub, hn⟩ := Option.bind_eq_some_iff.mp hn
        obtain ⟨s', hs', rfl⟩ := Option.map_eq_some_iff.mp hn
        obtain ⟨hsound, hview⟩ := h.publish hr hev.1 hev.2 hpub hs'
        exact shown hl trivial hview hsound
      · cases hn
  | republish k =>
    simp only [machineNext] at hn
    split at hn
    · rename_i hev
      obtain ⟨ring, hpub, rfl⟩ := Option.map_eq_some_iff.mp hn
      obtain ⟨hpend, hpc⟩ := h.ring.publish_adds hpub
      refine shown hl trivial (l := .redeliver k) ?_ (h.keep (h.ring.refines hpub).1 hpc)
      show (m.base.delivered[k]?).map _ = _
      rw [hev]
      refine congrArg some ?_
      show _ = m.base.withRing ring.ring.pending
      rw [hpend]
      rfl
    · cases hn
  | enter t =>
    simp only [machineNext] at hn
    split at hn
    · rename_i min max hr hnone
      obtain ⟨ring, hcall, rfl⟩ := Option.map_eq_some_iff.mp hn
      obtain ⟨hsound, hview⟩ := h.enter hr hl hcall
      exact hidden P hview hsound
    · cases hn
  | reap =>
    simp only [machineNext] at hn
    obtain ⟨ring, hring, hn⟩ := Option.bind_eq_some_iff.mp hn
    have hsound := (h.ring.refines hring).1
    rcases h.ring.step_cases hring with ⟨hpc, hmax, hsame⟩ | ⟨evs, hret⟩
    · have hm' : m' = { m with ring := ring } := by
        split at hn
        · next hidle => exact absurd hidle hpc
        · exact (Option.some.inj hn).symm
      subst hm'
      refine hidden P ?_ ⟨hsound, h.unused, fun hnone => ?_, fun t ht => ?_⟩
      · show m.base.withRing ring.ring.pending = _
        rw [hsame]
        rfl
      · -- who is outside makes no step
        have hstep : ringNext m.ring .step = none := by
          show reaperStep m.ring m.ring.pc = none
          rw [h.idle hnone]
          rfl
        rw [hstep] at hring
        cases hring
      · rw [hmax]
        exact h.reading t ht
    · have hn : m.returns cfg ring (m.readIn ring).length (m.readIn ring) = some m' := by
        rw [hret.idle] at hn
        exact hn
      cases ht : m.reader with
      | none =>
        rw [returns, ht] at hn
        cases hn
      | some t =>
        obtain ⟨m'', hm'', hs, hal, hview⟩ := h.returned hsound hret ht
        obtain rfl := Option.some.inj (hn.symm.trans hm'')
        exact shown (hP t _) hal hview hs
  | io_getevents k =>
    obtain ⟨ring, hring, hn⟩ := Option.bind_eq_some_iff.mp hn
    obtain ⟨evs, hret⟩ := h.ring.io_getevents_returns hring
    cases ht : m.reader with
    | none =>
      rw [returns, ht] at hn
      cases hn
    | some t =>
      obtain ⟨m'', hm'', hs, hal, hview⟩ := h.returned (h.ring.refines hring).1 hret ht
      obtain rfl := Option.some.inj (hn.symm.trans hm'')
      exact shown (hP t _) hal hview hs
  | fail e =>
    simp only [machineNext] at hn
    split at hn
    · split at hn
      · rename_i he
        cases ht : m.reader with
        | none =>
          rw [returns, ht] at hn
          cases hn
        | some t =>
          obtain ⟨hs, hal, hview⟩ := h.failed he ht hn
          exact shown (hP t e) hal hview hs
      · cases hn
    · cases hn

omit [DecidableEq Tid] in
theorem Sound.initial {env : Process} {ring : AioRing IoEvent} (hin : ring.Inside)
    (hempty : ring.head = ring.tail) :
    (initial cfg env ring : Machine Tid).Sound cfg ∧
      (initial cfg env ring : Machine Tid).view = .initial cfg env := by
  have hcount : ring.count = 0 := by
    rw [hin.count_eq, hempty, if_pos le_rfl, Nat.sub_self]
  refine ⟨⟨⟨hin, fun hw => absurd hw Bool.false_ne_true, trivial⟩, rfl, fun _ => rfl,
    fun t ht => by cases ht⟩, ?_⟩
  show (State.initial cfg env).withRing ring.pending = _
  rw [AioRing.pending, hcount]
  rfl

/-- Who is in the call and not in `io_getevents` does not wait for anybody, and is not
refused the events. -/
theorem Sound.reap_isSome (h : m.Sound cfg) (ht : m.reader = some t)
    (hpc : ∀ max, m.ring.pc ≠ .io_getevents max) : (machineNext cfg m .reap).isSome = true := by
  have hstep : ∃ ring, ringNext m.ring .step = some ring := by
    obtain ⟨min, max, -, hmax, -⟩ := h.reading t ht
    show ∃ ring, reaperStep m.ring m.ring.pc = some ring
    rw [RingState.max?] at hmax
    rcases hq : m.ring.pc with - | ⟨min_nr, max, timeout⟩ | ⟨min_nr, max, timeout⟩ |
      ⟨min_nr, max, timeout, head⟩ | ⟨max, head, n, needMod, events⟩ | max
    · rw [hq] at hmax
      cases hmax
    · simp only [reaperStep]
      split <;> exact ⟨_, rfl⟩
    · exact ⟨_, rfl⟩
    · simp only [reaperStep]
      split <;> exact ⟨_, rfl⟩
    · simp only [reaperStep]
      split <;> exact ⟨_, rfl⟩
    · exact absurd hq (hpc max)
  obtain ⟨ring, hring⟩ := hstep
  simp only [machineNext, hring, Option.bind_some]
  rcases h.ring.step_cases hring with ⟨hidle, -, -⟩ | ⟨evs, hret⟩
  · split
    · next hq => exact absurd hq hidle
    · rfl
  · obtain ⟨m', hm', -⟩ := h.returned (h.ring.refines hring).1 hret ht
    rw [hret.idle]
    exact Option.isSome_iff_exists.mpr ⟨m', hm'⟩

end Machine

/-- The two levels, as a simulation. -/
theorem machine_simulates {P : Label Tid → Prop} (hP : ∀ t e, P (.step t { events := e })) :
    Simulation (machineNext cfg) (Reads P) (next cfg) (fun s l => P l ∧ ReadsAlone s l)
      fun (m : Machine Tid) s => m.Sound cfg ∧ s = m.view where
  step := by
    rintro m _ ml m' ⟨h, rfl⟩ hl hn
    exact h.step hP hl hn

/-- The users and the kernel keep to the rules. -/
def Regular (l : Label Tid) : Prop := Smooth l ∧ DeliversOnce l

omit [DecidableEq Tid] in
instance : DecidablePred (Regular : Label Tid → Prop) := fun _ =>
  inferInstanceAs (Decidable (_ ∧ _))

omit [DecidableEq Tid] in
theorem Regular.read (t : Tid) (e : ℤ) : Regular (.step t { events := e }) := ⟨rfl, trivial⟩

/-- An empty ring of four slots whose next slot is the last one. -/
def smallRing : AioRing IoEvent :=
  ⟨4, 3, 3, AIO_RING_MAGIC, AIO_RING_INCOMPAT_FEATURES, fun _ => ⟨0, 0, 0⟩⟩

/-- Two requests are submitted and the second one is completed; the first one is
completed while the poller copies the event, into the slot at the beginning. -/
def completedMeanwhile : List (MachineLabel Bool) :=
  (submits false ⟨.pwrite, 5, 0, 512, some 1⟩ ++ submits false ⟨.pread, 6, 0, 512, some 2⟩).map
      .move ++
    [.write ⟨1, 512, 1⟩, .publish 1, .move (.call true .poll), .move (.step true {}), .enter true,
      .reap, .reap, .write ⟨0, -5, 0⟩, .reap, .publish 0, .reap, .reap] ++
    (steps true 6).map .move

end ArtemisNative
