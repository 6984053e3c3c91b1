/-
ArtemisNative/Readers.lean

Several threads inside `ringio_get_events`.

`poll(callbacks, ..)` takes no lock, so nothing but its documentation keeps a second thread
from reading while one is inside.  `Readers` is the context with the ring in memory and a
position inside `ringio_get_events` for every thread: all of them load the same `head`, copy
slots into the same `control->events`, entry by entry, and store the same `head`.  `min` and
`max` are whatever the application passes.  (The loops over what has been read are those of
`next`; they look at an event again at each of their steps, where the source has loaded it.
Of the requests only the number matters here.)

A thread that has loaded `head` computes from it, with a `tail` it loads later, how many
events it may copy.  If another one has moved `head` in between, that number counts events
twice, and may be more than the buffer has room for (`events_overrun`).  The library takes
itself to be the only one that writes `head`.  As long as it is right in this, that is,
nobody moves `head` while another thread works with the `head` it has loaded
(`ExclusiveWriter`), no entry behind the buffer is written (`events_within`), whatever other
threads do.
-/
import ArtemisNative.EventsBuffer
import ArtemisNative.Reaping

namespace ArtemisNative

open Cyclic Transition

variable {Tid : Type} [DecidableEq Tid] {cfg : Config} {s s' : State Tid} {t u : Tid}
variable {l : Label Tid}

/-! ### The system -/

/-- A context, the ring in memory until it is unmapped, and where each thread is inside
`ringio_get_events`.  The list `base.ring` is not used. -/
structure Readers (Tid : Type) where
  base : State Tid
  ring : AioRing IoEvent
  /-- the kernel has written the slot at `tail` and not advanced `tail` -/
  written : Bool
  mapped : Bool
  calls : Tid → ReaperPc IoEvent

inductive ReadersLabel (Tid : Type)
  /-- any step that has nothing to do with the ring -/
  | move (l : Label Tid)
  /-- the kernel writes a slot, and moves `tail` for the `k`-th request in flight -/
  | write (ev : IoEvent)
  | publish (k : ℕ)
  /-- thread `t` calls `ringio_get_events`; it goes on there, or `io_getevents` returns with
  `k` events or an error -/
  | enter (t : Tid)
  | reap (t : Tid)
  | io_getevents (t : Tid) (k : ℕ)
  | fail (t : Tid) (e : ℤ)

namespace Readers

/-- The ring for the kernel, and for thread `t`. -/
def kernel (m : Readers Tid) : RingState IoEvent :=
  ⟨m.ring, m.base.forceSysCall, .idle, m.written, [], []⟩

def caller (m : Readers Tid) (t : Tid) : RingState IoEvent :=
  ⟨m.ring, m.base.forceSysCall, m.calls t, m.written, [], []⟩

/-- The next step of the thread does not look at a ring that is not there. -/
def readable (m : Readers Tid) (t : Tid) : Bool :=
  m.mapped ||
    match m.calls t with
    | .start _ _ _ => m.base.forceSysCall
    | _ => false

/-- `control->events` behind the next step of thread `t`. -/
def stored (m : Readers Tid) (t : Tid) : ℕ → IoEvent :=
  match m.calls t with
  | .copy _ head available_nr _ events =>
    if events.length < available_nr then
      Function.update m.base.events events.length (m.ring.io_events head)
    else m.base.events
  | _ => m.base.events

/-- `ringio_get_events` returns to thread `t`, which has read `evs`. -/
def returns (m : Readers Tid) (t : Tid) (ring : AioRing IoEvent) (events : ℕ → IoEvent)
    (evs : List IoEvent) : Readers Tid :=
  { m with
    base := ({ m.base with events := events }.record
      (evs.map fun ev : IoEvent => (m.base.pc t).readObs ev.op)).goto t
      ((m.base.pc t).received evs.length)
    ring := ring
    calls := Function.update m.calls t .idle }

end Readers

def readersNext (cfg : Config) (m : Readers Tid) : ReadersLabel Tid → Option (Readers Tid)
  | .move l =>
    if m.base.atRing l then none
    else
      (next cfg m.base l).map fun s =>
        { m with base := s, mapped := m.mapped && !m.base.atRelease l }
  | .write ev =>
    if m.mapped then
      (ringNext m.kernel (.write ev)).map fun r => { m with ring := r.ring, written := r.written }
    else none
  | .publish k =>
    -- the event in the slot is that of an accepted request, which is gone from then on
    let ev := m.ring.io_events m.ring.tail
    match m.base.inflight[k]? with
    | none => none
    | some req =>
      if m.mapped = true ∧ ev.obj = req.obj ∧ ev.op = req.op then
        (ringNext m.kernel .publish).bind fun r =>
          (completeStep m.base k ev.res).map fun s =>
            { m with base := s.withRing [], ring := r.ring, written := r.written }
      else none
  | .enter t =>
    match (m.base.pc t).reads cfg, m.calls t with
    | some (min, max), .idle =>
      some { m with calls := Function.update m.calls t (.start min max none) }
    | _, _ => none
  | .reap t =>
    if m.readable t then
      (reaperStep (m.caller t) (m.calls t)).map fun r =>
        match r.pc with
        | .idle => m.returns t r.ring m.base.events r.returned
        | pc =>
          { m with
            base := { m.base with events := m.stored t }
            calls := Function.update m.calls t pc }
    else none
  | .io_getevents t k =>
    match m.calls t, (m.base.pc t).reads cfg with
    | .io_getevents _, some (min, max) =>
      -- the kernel refuses other arguments
      if m.mapped = true ∧ (0 ≤ min ∧ min ≤ max) ∧ k ≤ max ∧ k ≤ m.ring.count then
        let evs := m.ring.pending.take k
        some (m.returns t { m.ring with head := (m.ring.head + k) % m.ring.nr }
          (fun i => (evs[i]?).getD (m.base.events i)) evs)
      else none
    | _, _ => none
  | .fail t e =>
    match m.calls t, (m.base.pc t).reads cfg with
    | .io_getevents _, some _ =>
      if e < 0 then
        (next cfg m.base (.step t { events := e })).map fun s =>
          { m with base := s, calls := Function.update m.calls t .idle }
      else none
    | _, _ => none

/-- A context with its ring, and nobody inside. -/
def Readers.initial (cfg : Config) (env : Process) (ring : AioRing IoEvent) : Readers Tid :=
  ⟨.initial cfg env, ring, false, true, fun _ => .idle⟩

/-! ### Who works with a `head` -/

section

variable {α : Type} {ring ring' : AioRing α} {pc : ReaperPc α} {r r' : RingState α}

/-- The thread has loaded `head`, and not stored it yet. -/
def ReaperPc.hasHead : ReaperPc α → Bool
  | .loadTail _ _ _ _ | .copy _ _ _ _ _ => true
  | _ => false

/-- The copy loop is over, and the next step stores `head`. -/
def ReaperPc.storesHead : ReaperPc α → Bool
  | .copy _ _ available_nr _ events => decide (available_nr ≤ events.length)
  | _ => false

/-- Nobody moves `head` while another thread works with the one it has loaded. -/
def ExclusiveWriter (m : Readers Tid) : ReadersLabel Tid → Prop
  | .reap t => (m.calls t).storesHead = true → ∀ u, u ≠ t → (m.calls u).hasHead = false
  | .io_getevents t _ => ∀ u, u ≠ t → (m.calls u).hasHead = false
  | _ => True

instance [Fintype Tid] (m : Readers Tid) : DecidablePred (ExclusiveWriter m)
  | .reap _ => inferInstanceAs (Decidable (_ → _))
  | .io_getevents t _ =>
    inferInstanceAs (Decidable (∀ u, u ≠ t → (m.calls u).hasHead = false))
  | .move _ | .write _ | .publish _ | .enter _ | .fail _ _ => isTrue trivial

/-- The `head` a thread has loaded is still that of the ring, and what it copies is there. -/
def ReaperPc.Follows (ring : AioRing α) : ReaperPc α → Prop
  | .loadTail _ _ _ head => head = ring.head
  | .copy _ head available_nr needMod events =>
    available_nr ≤ ring.count ∧ events.length ≤ available_nr ∧
      needMod = decide (ring.nr ≤ toUnsigned (ring.head + available_nr)) ∧
      head = (ring.head + events.length) % ring.nr
  | _ => True

theorem ReaperPc.Follows.of_hasHead (h : pc.hasHead = false) : pc.Follows ring := by
  cases pc with
  | loadTail min_nr max timeout head => cases h
  | copy max head available_nr needMod events => cases h
  | _ => trivial

/-- A ring that only gained events. -/
theorem ReaperPc.Follows.mono (h : pc.Follows ring) (hnr : ring'.nr = ring.nr)
    (hhead : ring'.head = ring.head) (hcount : ring.count ≤ ring'.count) : pc.Follows ring' := by
  cases pc with
  | loadTail min_nr max timeout head => exact h.trans hhead.symm
  | copy max head available_nr needMod events =>
    obtain ⟨hle, hlen, hmod, hcur⟩ := h
    refine ⟨hle.trans hcount, hlen, ?_, ?_⟩ <;> rw [hnr, hhead]
    · exact hmod
    · exact hcur
  | _ => trivial

/-- A step inside the call: it goes on, there is nothing to read, or `head` is stored, behind
the events that have been copied. -/
theorem reaperStep_cases (hin : r.ring.Inside) (hf : r.pc.Follows r.ring) (hret : r.returned = [])
    (hn : reaperStep r r.pc = some r') :
    (r'.pc ≠ .idle ∧ r'.pc.Follows r.ring) ∨
    (r'.pc = .idle ∧ r'.ring = r.ring ∧ r'.returned = []) ∨
    (r'.pc = .idle ∧ r.pc.storesHead = true ∧ r'.returned.length ≤ r.ring.count ∧
      r'.ring = { r.ring with head := (r.ring.head + r'.returned.length) % r.ring.nr }) := by
  rcases hpc : r.pc with - | ⟨min_nr, max, timeout⟩ | ⟨min_nr, max, timeout⟩ |
    ⟨min_nr, max, timeout, head⟩ | ⟨max, head, n, needMod, events⟩ | max <;> rw [hpc] at hn hf
  · cases hn
  · simp only [reaperStep] at hn
    split at hn <;> obtain rfl := Option.some.inj hn <;>
      exact .inl ⟨(fun he => by cases he), trivial⟩
  · obtain rfl := Option.some.inj hn
    exact .inl ⟨(fun he => by cases he), rfl⟩
  · obtain rfl : head = r.ring.head := hf
    simp only [reaperStep] at hn
    split at hn <;> obtain rfl := Option.some.inj hn
    · -- nothing is there
      exact .inr (.inl ⟨rfl, rfl, hret⟩)
    · exact .inl ⟨(fun he => by cases he), trivial⟩
    · rename_i n needMod hr
      obtain ⟨hcount, -, hmod⟩ := ringReap_copy hin hr
      refine .inl ⟨(fun he => by cases he), hcount.le, Nat.zero_le _, hmod, ?_⟩
      exact (Nat.mod_eq_of_lt hin.head_lt).symm
  · obtain ⟨hle, hlen, hmod, hcur⟩ := hf
    simp only [reaperStep] at hn
    split at hn <;> obtain rfl := Option.some.inj hn
    · rename_i hlt
      refine .inl ⟨(fun he => by cases he), hle, ?_, hmod, ?_⟩
      · rw [List.length_append]
        exact hlt
      · rw [List.length_append, hmod, hcur]
        exact hin.ringAdvance_eq hlt hle
    · -- the cursor has come to the new `head`
      rename_i hdone
      refine .inr (.inr ⟨rfl, decide_eq_true (Nat.not_lt.mp hdone), ?_, ?_⟩)
      · rw [hret]
        exact hlen.trans hle
      · rw [hret, hcur]
        rfl
  · cases hn

end

/-! ### What a step can do -/

namespace Readers

variable {m m' : Readers Tid} {ml : ReadersLabel Tid}

/-- The steps of the system, with what each of them has looked at.  A call only returns from
user space if the ring is there. -/
inductive Moves (cfg : Config) (m : Readers Tid) : ReadersLabel Tid → Readers Tid → Prop
  | moved (l : Label Tid) (s : State Tid) (hat : m.base.atRing l = false)
      (hn : next cfg m.base l = some s) :
      Moves cfg m (.move l) { m with base := s, mapped := m.mapped && !m.base.atRelease l }
  | wrote (ev : IoEvent) (r : RingState IoEvent)
      (hn : ringNext m.kernel (.write ev) = some r) :
      Moves cfg m (.write ev) { m with ring := r.ring, written := r.written }
  | published (k : ℕ) (req : Request) (r : RingState IoEvent) (s : State Tid)
      (hmapped : m.mapped = true) (hreq : m.base.inflight[k]? = some req)
      (hpub : ringNext m.kernel .publish = some r)
      (hn : completeStep m.base k (m.ring.io_events m.ring.tail).res = some s) :
      Moves cfg m (.publish k)
        { m with base := s.withRing [], ring := r.ring, written := r.written }
  | entered (t : Tid) (min max : ℤ) :
      Moves cfg m (.enter t) { m with calls := Function.update m.calls t (.start min max none) }
  | wentOn (t : Tid) (r : RingState IoEvent)
      (hn : reaperStep (m.caller t) (m.calls t) = some r) (hpc : r.pc ≠ .idle) :
      Moves cfg m (.reap t) { m with
        base := { m.base with events := m.stored t }
        calls := Function.update m.calls t r.pc }
  | reaped (t : Tid) (r : RingState IoEvent) (hmapped : m.mapped = true)
      (hn : reaperStep (m.caller t) (m.calls t) = some r) (hpc : r.pc = .idle) :
      Moves cfg m (.reap t) (m.returns t r.ring m.base.events r.returned)
  | io_getevents (t : Tid) (k : ℕ) (hmapped : m.mapped = true) (hk : k ≤ m.ring.count) :
      Moves cfg m (.io_getevents t k)
        (m.returns t { m.ring with head := (m.ring.head + k) % m.ring.nr }
          (fun i => ((m.ring.pending.take k)[i]?).getD (m.base.events i)) (m.ring.pending.take k))
  | failed (t : Tid) (e : ℤ) (r : ℤ × ℤ) (s : State Tid)
      (hr : (m.base.pc t).reads cfg = some r) (he : e < 0)
      (hn : next cfg m.base (.step t { events := e }) = some s) :
      Moves cfg m (.fail t e) { m with base := s, calls := Function.update m.calls t .idle }

omit [DecidableEq Tid] in
/-- A call only returns from user space if it has looked at the ring. -/
theorem mapped_of_returns {r : RingState IoEvent} (hreadable : m.readable t = true)
    (hn : reaperStep (m.caller t) (m.calls t) = some r) (hpc : r.pc = .idle) :
    m.mapped = true := by
  -- without a ring the only step is the test of `forceSysCall`, and that does not return
  by_contra hnot
  rw [readable, Bool.eq_false_iff.mpr hnot, Bool.false_or] at hreadable
  split at hreadable
  · rename_i hstart
    rw [hstart] at hn
    simp only [reaperStep] at hn
    split at hn <;> obtain rfl := Option.some.inj hn <;> cases hpc
  · cases hreadable

theorem readersNext_moves (hn : readersNext cfg m ml = some m') : Moves cfg m ml m' := by
  cases ml with
  | move l =>
    simp only [readersNext] at hn
    split at hn
    · cases hn
    · rename_i hat
      obtain ⟨s', hs, rfl⟩ := Option.map_eq_some_iff.mp hn
      exact .moved l s' (Bool.eq_false_iff.mpr hat) hs
  | write ev =>
    simp only [readersNext] at hn
    split at hn
    · obtain ⟨r, hr, rfl⟩ := Option.map_eq_some_iff.mp hn
      exact .wrote ev r hr
    · cases hn
  | publish k =>
    simp only [readersNext] at hn
    split at hn
    · cases hn
    · rename_i req hreq
      split at hn
      · rename_i hev
        obtain ⟨r, hr, hn⟩ := Option.bind_eq_some_iff.mp hn
        obtain ⟨s', hs, rfl⟩ := Option.map_eq_some_iff.mp hn
        exact .published k req r s' hev.1 hreq hr hs
      · cases hn
  | enter t =>
    simp only [readersNext] at hn
    split at hn
    · obtain rfl := Option.some.inj hn
      exact .entered t _ _
    · cases hn
  | reap t =>
    simp only [readersNext] at hn
    split at hn
    · rename_i hreadable
      obtain ⟨r, hr, rfl⟩ := Option.map_eq_some_iff.mp hn
      split
      · rename_i hpc
        exact .reaped t r (mapped_of_returns hreadable hr hpc) hr hpc
      · rename_i hpc
        exact .wentOn t r hr hpc
    · cases hn
  | io_getevents t k =>
    simp only [readersNext] at hn
    split at hn
    · split at hn
      · rename_i hk
        obtain rfl := Option.some.inj hn
        exact .io_getevents t k hk.1 hk.2.2.2
      · cases hn
    · cases hn
  | fail t e =>
    simp only [readersNext] at hn
    split at hn
    · rename_i r _ hr
      split at hn
      · rename_i he
        obtain ⟨s', hs, rfl⟩ := Option.map_eq_some_iff.mp hn
        exact .failed t e r s' hr he hs
      · cases hn
    · cases hn

end Readers

/-! ### What stays within the buffer -/

namespace Readers

variable {m m' : Readers Tid} {ml : ReadersLabel Tid}

/-- The completed events as a list; behind `io_queue_release` there are none. -/
def events (m : Readers Tid) : List IoEvent := if m.mapped then m.ring.pending else []

def view (m : Readers Tid) : State Tid := m.base.withRing m.events

/-- The pool is accounted for, no thread works with an old `head`, and there are no more
events than the buffer has room for. -/
structure Sound (cfg : Config) (m : Readers Tid) : Prop where
  inside : m.ring.Inside
  room : m.written = true → m.ring.count + 1 < m.ring.nr
  unused : m.base.ring = []
  bounded : Bounded cfg m.view
  count_le : m.ring.count ≤ cfg.queueSize
  follows : ∀ t, (m.calls t).Follows m.ring

omit [DecidableEq Tid] in
theorem length_events : m.events.length = if m.mapped then m.ring.count else 0 := by
  rw [events]
  split
  · rw [AioRing.pending, length_window]
  · rfl

omit [DecidableEq Tid] in
theorem Sound.initial {ring : AioRing IoEvent} (hin : ring.Inside) (hempty : ring.head = ring.tail)
    (env : Process) : Sound cfg (.initial cfg env ring : Readers Tid) := by
  have hcount : ring.count = 0 := by
    rw [hin.count_eq, if_pos hempty.le, hempty, Nat.sub_self]
  have hnone : (Readers.initial cfg env ring : Readers Tid).events = [] := by
    apply List.eq_nil_of_length_eq_zero
    rw [length_events]
    exact hcount
  refine ⟨hin, fun hw => absurd hw Bool.false_ne_true, rfl, ?_, ?_, fun _ => trivial⟩
  · rw [view, hnone]
    exact Bounded.initial env
  · show ring.count ≤ _
    omega

/-- A step that has nothing to do with the ring. -/
theorem Sound.move (h : Sound cfg m) (hat : m.base.atRing l = false)
    (hn : next cfg m.base l = some s') :
    Sound cfg { m with base := s', mapped := m.mapped && !m.base.atRelease l } := by
  have honce : DeliversOnce l := by
    cases l with
    | redeliver k => cases hat
    | _ => trivial
  by_cases hrel : m.base.atRelease l = true
  · -- the ring is unmapped, and there are no more events
    obtain ⟨hview, hnil⟩ := next_release m.events hrel hn
    refine ⟨h.inside, h.room, hnil, ?_, h.count_le, h.follows⟩
    refine (h.bounded.step honce hview).congr rfl rfl rfl ?_
    show (Readers.events _).length = _
    rw [hnil, events, hrel, Bool.not_true, Bool.and_false, if_neg Bool.false_ne_true]
  · have hrel := Bool.eq_false_iff.mpr hrel
    have hview := next_withRing m.events hat hrel hn
    refine ⟨h.inside, h.room, next_unused h.unused hat hrel hn, ?_, h.count_le, h.follows⟩
    refine (h.bounded.step honce hview).congr rfl rfl rfl ?_
    show (Readers.events _).length = m.events.length
    rw [events, events, hrel, Bool.not_false, Bool.and_true]

omit [DecidableEq Tid] in
/-- The kernel writes a slot. -/
theorem Sound.write {ev : IoEvent} {r : RingState IoEvent} (h : Sound cfg m)
    (hn : ringNext m.kernel (.write ev) = some r) :
    Sound cfg { m with ring := r.ring, written := r.written } := by
  simp only [ringNext] at hn
  split at hn
  · rename_i hroom
    obtain rfl := Option.some.inj hn
    refine ⟨⟨h.inside.nr_lt, h.inside.head_lt, h.inside.tail_lt⟩,
      fun _ => h.inside.has_room_iff.mp hroom, h.unused, ?_, h.count_le,
      fun t => (h.follows t).mono rfl rfl le_rfl⟩
    refine h.bounded.congr rfl rfl rfl ?_
    show (Readers.events _).length = m.events.length
    rw [length_events, length_events]
    rfl
  · cases hn

/-- The kernel completes a request where it moves `tail`. -/
theorem Sound.publish {k : ℕ} {req : Request} {res : ℤ} {r : RingState IoEvent}
    (h : Sound cfg m) (hmapped : m.mapped = true) (hreq : m.base.inflight[k]? = some req)
    (hpub : ringNext m.kernel .publish = some r) (hn : completeStep m.base k res = some s') :
    Sound cfg { m with base := s'.withRing [], ring := r.ring, written := r.written } := by
  simp only [ringNext] at hpub
  split at hpub
  · rename_i hw
    obtain rfl := Option.some.inj hpub
    obtain ⟨hin, hcount, -⟩ := h.inside.advance_tail (h.room hw)
    simp only [completeStep, hreq] at hn
    split at hn
    · rename_i hres
      obtain rfl := Option.some.inj hn
      have hview : next cfg m.view (.complete k res) =
          some (m.view.complete k ⟨req.obj, res, req.op⟩) := by
        show completeStep m.view k res = _
        have hreq : m.view.inflight[k]? = some req := hreq
        simp only [completeStep, hreq, if_pos hres]
      have honce : DeliversOnce (Label.complete k res : Label Tid) := trivial
      have hbounded : Bounded cfg (Readers.view { m with
          base := (m.base.complete k ⟨req.obj, res, req.op⟩).withRing []
          ring := { m.ring with tail := (m.ring.tail + 1) % m.ring.nr }
          written := false }) := by
        refine (h.bounded.step honce hview).congr rfl rfl rfl ?_
        show (Readers.events _).length = (m.events ++ [_]).length
        simp only [List.length_append, List.length_singleton, length_events, hmapped, if_true]
        exact hcount
      -- that there is no more in the ring than the pool has handed out bounds the count
      have hle := hbounded.ring_le
      simp only [view, State.withRing, length_events, hmapped, if_true] at hle
      refine ⟨hin, fun hw => absurd hw Bool.false_ne_true, rfl, hbounded, hle,
        fun t => (h.follows t).mono rfl rfl ?_⟩
      show m.ring.count ≤ AioRing.count _
      exact hcount ▸ Nat.le_succ _
    · cases hn
  · cases hpub

/-- A thread goes on inside the call. -/
theorem Sound.goOn {pc : ReaperPc IoEvent} (h : Sound cfg m) (hpc : pc.Follows m.ring)
    (events : ℕ → IoEvent) :
    Sound cfg { m with
      base := { m.base with events := events }, calls := Function.update m.calls t pc } where
  inside := h.inside
  room := h.room
  unused := h.unused
  bounded := h.bounded.congr rfl rfl rfl rfl
  count_le := h.count_le
  follows := by
    intro u
    show (Function.update m.calls t pc u).Follows m.ring
    rw [Function.update_apply]
    split
    · exact hpc
    · exact h.follows u

theorem Pc.owes_received (n : ℕ) (p : Pc) : (p.received n).owes ≤ n + p.owes := by
  cases p with
  | blocked q => cases q <;> simp [Pc.received, Pc.owes, Stage.owes]
  | poll q => cases q <;> simp [Pc.received, Pc.owes, PollStage.owes]
  | close q => cases q <;> simp [Pc.received, Pc.owes]
  | _ => simp [Pc.received]

/-- The call returns events, which are no longer in the ring. -/
theorem Sound.returned {evs : List IoEvent} {ring : AioRing IoEvent} (h : Sound cfg m)
    (hmapped : m.mapped = true) (hin : ring.Inside) (hnr : ring.nr = m.ring.nr)
    (hcount : ring.count + evs.length = m.ring.count)
    (hfollows : ∀ u, u ≠ t → (m.calls u).Follows ring) (events : ℕ → IoEvent) :
    Sound cfg (m.returns t ring events evs) := by
  refine ⟨hin, fun hw => ?_, h.unused, ⟨fun S => ?_, h.bounded.size, h.bounded.room⟩, ?_, ?_⟩
  · have hroom := h.room hw
    show ring.count + 1 < ring.nr
    omega
  · -- what leaves the ring is owed by the thread that has read it
    refine h.bounded.owed_moved (t := t) (fun u hu => Function.update_of_ne hu _ _) ?_ S
    have howes := Pc.owes_received evs.length (m.base.pc t)
    show (m.base.pool.used - m.base.inflight.length - m.events.length : ℤ) + _
      ≤ (m.base.pool.used - m.base.inflight.length - (Readers.events _).length : ℤ) + _
    simp only [length_events, returns, hmapped, if_true, view, State.withRing, State.goto,
      Function.update_self]
    omega
  · show ring.count ≤ _
    have hsize := h.count_le
    omega
  · intro u
    show (Function.update m.calls t .idle u).Follows ring
    rw [Function.update_apply]
    split
    · trivial
    · rename_i hu
      exact hfollows u hu

/-- It moves `head` behind them, and nobody else works with the old one. -/
theorem Sound.reaped {evs : List IoEvent} {ring : AioRing IoEvent} (h : Sound cfg m)
    (hmapped : m.mapped = true) (hle : evs.length ≤ m.ring.count)
    (hring : ring = { m.ring with head := (m.ring.head + evs.length) % m.ring.nr })
    (hall : ∀ u, u ≠ t → (m.calls u).hasHead = false) (events : ℕ → IoEvent) :
    Sound cfg (m.returns t ring events evs) := by
  obtain ⟨hin, hpend⟩ := h.inside.advance_head hle
  rw [← hring] at hin hpend
  have hlen := congrArg List.length hpend
  rw [List.length_drop, AioRing.pending, AioRing.pending, length_window, length_window] at hlen
  exact h.returned hmapped hin (by rw [hring]) (by omega) (fun u hu => .of_hasHead (hall u hu))
    events

/-- The call fails. -/
theorem Sound.failed {e : ℤ} {r : ℤ × ℤ} (h : Sound cfg m)
    (hr : (m.base.pc t).reads cfg = some r) (he : e < 0)
    (hn : next cfg m.base (.step t { events := e }) = some s') :
    Sound cfg { m with base := s', calls := Function.update m.calls t .idle } := by
  obtain ⟨s'', hn', hring, hview⟩ := next_read_failed m.events hr he
  obtain rfl := Option.some.inj (hn.symm.trans hn')
  have honce : DeliversOnce (Label.step t { events := e } : Label Tid) := trivial
  refine ⟨h.inside, h.room, hring.trans h.unused, ?_, h.count_le, fun u => ?_⟩
  · exact (h.bounded.step honce hview).congr rfl rfl rfl rfl
  · show (Function.update m.calls t .idle u).Follows m.ring
    rw [Function.update_apply]
    split
    · trivial
    · exact h.follows u

/-- **The invariant is kept**, as long as nobody moves `head` under another thread. -/
theorem Sound.step (h : Sound cfg m) (hex : ExclusiveWriter m ml)
    (hn : readersNext cfg m ml = some m') : Sound cfg m' := by
  cases readersNext_moves hn with
  | moved l s hat hs => exact h.move hat hs
  | wrote ev r hr => exact h.write hr
  | published k req r s hmapped hreq hpub hs => exact h.publish hmapped hreq hpub hs
  | entered t min max =>
    refine h.goOn ?_ m.base.events
    trivial
  | wentOn t r hr hpc =>
    rcases reaperStep_cases (r := m.caller t) h.inside (h.follows t) rfl hr with
      ⟨-, hf⟩ | ⟨hidle, -⟩ | ⟨hidle, -⟩
    · exact h.goOn hf _
    · exact absurd hidle hpc
    · exact absurd hidle hpc
  | reaped t r hmapped hr hpc =>
    rcases reaperStep_cases (r := m.caller t) h.inside (h.follows t) rfl hr with
      ⟨hgoes, -⟩ | ⟨-, hring, hret⟩ | ⟨-, hstores, hle, hring⟩
    · exact absurd hpc hgoes
    · rw [hring, hret]
      exact h.returned hmapped h.inside rfl rfl (fun u _ => h.follows u) m.base.events
    · exact h.reaped hmapped hle hring (hex hstores) m.base.events
  | io_getevents t k hmapped hk =>
    have hlen : (m.ring.pending.take k).length = k := by
      rw [List.length_take, AioRing.pending, length_window]
      exact min_eq_left hk
    exact h.reaped hmapped (by rw [hlen]; exact hk) (by rw [hlen]) hex _
  | failed t e r s hr he hs => exact h.failed hr he hs

omit [DecidableEq Tid] in
/-- What a thread copies goes into the buffer. -/
theorem Sound.stored_behind (h : Sound cfg m) {j : ℕ} (hj : cfg.queueSize ≤ j) :
    m.stored t j = m.base.events j := by
  have hf := h.follows t
  unfold stored
  cases hpc : m.calls t with
  | copy max head available_nr needMod events =>
    rw [hpc] at hf
    have hle := hf.1.trans h.count_le
    show (if _ then _ else _ : ℕ → IoEvent) j = _
    split
    · exact Function.update_of_ne (by omega) _ _
    · rfl
  | _ => rfl

/-- Nothing behind the buffer is written. -/
theorem Sound.behind (h : Sound cfg m) (hn : readersNext cfg m ml = some m') {j : ℕ}
    (hj : cfg.queueSize ≤ j) : m'.base.events j = m.base.events j := by
  have hbase : ∀ {l : Label Tid} {s' : State Tid}, next cfg m.base l = some s' →
      s'.events j = m.base.events j := fun hs =>
    next_buffer hs (by rw [h.unused]; exact Nat.zero_le j)
  cases readersNext_moves hn with
  | moved l s hat hs => exact hbase hs
  | wrote ev r hr => rfl
  | published k req r s hmapped hreq hpub hs =>
    show s.events j = _
    exact hbase (l := .complete k _) hs
  | entered t min max => rfl
  | wentOn t r hr hpc => exact h.stored_behind hj
  | reaped t r hmapped hr hpc => rfl
  | io_getevents t k hmapped hk =>
    have hle := hk.trans h.count_le
    show ((m.ring.pending.take k)[j]?).getD (m.base.events j) = _
    rw [List.getElem?_eq_none ((List.length_take_le k _).trans (hle.trans hj)), Option.getD_none]
  | failed t e r s hr he hs => exact hbase hs

end Readers

/-- **No call stores more events than `newContext` has allocated room for**, and nothing behind
the buffer is ever written: neither by the ring copy nor by `io_getevents`, in `blockedPoll`,
`poll` with any `min` and `max`, and `deleteContext`, as long as nobody moves `head` while
another thread works with the one it has loaded. -/
theorem events_within {env : Process} {ring : AioRing IoEvent} {m : Readers Tid}
    (hin : ring.Inside) (hempty : ring.head = ring.tail)
    (hr : Reaches (readersNext cfg) ExclusiveWriter (.initial cfg env ring) m) :
    (∀ t max head available_nr needMod events,
      m.calls t = .copy max head available_nr needMod events →
        available_nr ≤ cfg.queueSize ∧ events.length ≤ available_nr) ∧
    (∀ t k m', readersNext cfg m (.io_getevents t k) = some m' → k ≤ cfg.queueSize) ∧
    ∀ j, cfg.queueSize ≤ j → m.base.events j = env.events j := by
  obtain ⟨h, hbehind⟩ := hr.invariant
    (I := fun m => m.Sound cfg ∧ ∀ j, cfg.queueSize ≤ j → m.base.events j = env.events j)
    ⟨.initial hin hempty env, fun _ _ => rfl⟩ fun m l m' hI hex hn =>
      ⟨hI.1.step hex hn, fun j hj => (hI.1.behind hn hj).trans (hI.2 j hj)⟩
  refine ⟨fun t max head available_nr needMod events hpc => ?_, fun t k m' hn => ?_, hbehind⟩
  · have hf := h.follows t
    rw [hpc] at hf
    exact ⟨hf.1.trans h.count_le, hf.2.1⟩
  · cases Readers.readersNext_moves hn with
    | io_getevents t k hmapped hk => exact hk.trans h.count_le

/-- A context with room for one request, and a ring of four slots. -/
def Readers.sample : Readers Bool :=
  .initial ⟨1, true, false⟩ ⟨fun _ => ⟨.pread, 0, 0, 0, .null⟩, fun _ => ⟨0, 0, 0⟩,
    .empty, false, 3⟩ smallRing

/-- Thread `t` calls `poll` for one to `max` events, and has loaded `head`. -/
def pollsUpToHead (t : Bool) (callbacks : List (Option ℕ)) (max : ℤ) :
    List (ReadersLabel Bool) :=
  [.move (.call t (.pollInto callbacks 1 max)), .enter t, .reap t, .reap t]

/-- A write is submitted, and completed as the `op`-th request. -/
def writesAndCompletes (t : Bool) (op : ℕ) : List (ReadersLabel Bool) :=
  (submits t ⟨.pwrite, 5, 512 * op, 512, some op⟩).map .move ++ [.write ⟨0, 512, op⟩, .publish 0]

/-- There is room for five events in the array, and one in the buffer. -/
theorem events_within_one : ∃ m : Readers Bool,
    Reaches (readersNext ⟨1, true, false⟩) ExclusiveWriter .sample m ∧
      (m.calls false).storesHead = true ∧ m.base.events 0 = ⟨0, 512, 0⟩ ∧
      ∀ j, 1 ≤ j → m.base.events j = ⟨0, 0, 0⟩ := by
  obtain ⟨m, hr, hstores, hfirst⟩ := exists_of_exec (readersNext ⟨1, true, false⟩)
    ExclusiveWriter .sample
    (writesAndCompletes true 0 ++ pollsUpToHead false [none, none, none, none, none] 5 ++
      [.reap false, .reap false])
    (fun m : Readers Bool => (m.calls false).storesHead = true ∧ m.base.events 0 = ⟨0, 512, 0⟩)
    (by decide)
  exact ⟨m, hr, hstores, hfirst,
    (events_within ⟨by decide, by decide, by decide⟩ rfl hr).2.2⟩

/-- Thread `true` reads an event, puts its iocb back and writes again, after thread `false` has
loaded `head`. -/
def readMeanwhile : List (ReadersLabel Bool) :=
  pollsUpToHead false [none, none, none] 3 ++ writesAndCompletes true 0 ++
    pollsUpToHead true [none] 1 ++ [.reap true, .io_getevents true 1] ++
    (steps true 6).map .move ++ writesAndCompletes true 1 ++
    [.reap false, .reap false, .reap false, .reap false]

/-- Two threads in `poll`, which nothing keeps apart: a buffer for one event, and one of them
stores two. -/
theorem events_overrun : ∃ m : Readers Bool,
    Reaches (readersNext ⟨1, true, false⟩) (fun _ _ => True) .sample m ∧
      m.base.freed = false ∧
      m.base.pc false = .poll (.event ⟨0, 2, [none, none, none], false⟩ .onError) ∧
      m.base.events 1 = ⟨0, 512, 1⟩ :=
  exists_of_exec (readersNext ⟨1, true, false⟩) (fun _ _ => True) .sample readMeanwhile
    (fun m : Readers Bool => m.base.freed = false ∧
      m.base.pc false = .poll (.event ⟨0, 2, [none, none, none], false⟩ .onError) ∧
      m.base.events 1 = ⟨0, 512, 1⟩) (by decide)

end ArtemisNative
