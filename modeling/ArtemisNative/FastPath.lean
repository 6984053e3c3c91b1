/-
ArtemisNative/FastPath.lean

Calls of `ringio_get_events` that nothing interferes with.

`Ring` takes a call apart, since the kernel may act between any two accesses.
Here a call is one function of the ring (`ringio_get_events`), which the reader
computes when it is left alone (`ringio_get_events_steps`).  It answers with
the events and the new ring, or not at all where the code goes on to
`io_getevents`.

Where it answers, the system call would have answered the same
(`ringio_get_events_agrees`).  So in a sequence of calls, with completions
arriving in between, it makes no difference when `setForceSyscall` is called and
with what (`calls_filter`).
-/
import ArtemisNative.Ring

namespace ArtemisNative

open Cyclic Transition

variable {α : Type} {ring ring' : AioRing α} {min_nr max : ℤ} {timeout : Option Timespec}
variable {events : List α} {needMod forceSysCall : Bool} {n i : ℕ}

/-! ### A call as one function -/

/-- The copy loop: `n` slots from `head` on. -/
def copyLoop (ring : AioRing α) (needMod : Bool) : ℕ → ℕ → List α → List α × ℕ
  | 0, head, events => (events, head)
  | n + 1, head, events =>
    copyLoop ring needMod n (ringAdvance ring.nr needMod head) (events ++ [ring.io_events head])

/-- The events a call returns and the ring it leaves; `none` where the call is passed
on to `io_getevents`. -/
def ringio_get_events (forceSysCall : Bool) (ring : AioRing α) (min_nr max : ℤ)
    (timeout : Option Timespec) : Option (List α × AioRing α) :=
  if forceSysCall = false ∧ has_usable_ring ring = true then
    match ringReap ring.nr ring.head ring.tail min_nr max timeout with
    | .none => some ([], ring)
    | .io_getevents => none
    | .copy available_nr needMod =>
      let copied := copyLoop ring needMod available_nr ring.head []
      some (copied.1, { ring with head := copied.2 })
  else
    none

/-- Remove the `k` oldest events. -/
def AioRing.pop (ring : AioRing α) (k : ℕ) : List α × AioRing α :=
  (ring.pending.take k, { ring with head := (ring.head + k) % ring.nr })

/-- The system call: it removes all events, or the `max` oldest; `none` where it has to
wait since there are less than `min_nr` and the timeout is not zero. -/
def io_getevents (ring : AioRing α) (min_nr max : ℤ) (timeout : Option Timespec) :
    Option (List α × AioRing α) :=
  if min_nr ≤ ring.count ∨ timeout = some ⟨0, 0⟩ then
    some (ring.pop (Nat.min ring.count max.toNat))
  else
    none

/-- The kernel adds an event, when there is room. -/
def AioRing.push (ring : AioRing α) (event : α) : Option (AioRing α) :=
  if (ring.tail + 1) % ring.nr ≠ ring.head then
    some { ring with
      io_events := Function.update ring.io_events ring.tail event
      tail := (ring.tail + 1) % ring.nr }
  else
    none

/-- The system call where it waits: `late` events arrive, and then it returns the `k`
oldest that are there, none when the timeout expires. -/
def io_getevents_waits (ring : AioRing α) (max : ℤ) (late : List α) (k : ℕ) :
    Option (List α × AioRing α) :=
  (late.foldlM AioRing.push ring).bind fun ring =>
    if k ≤ ring.count ∧ (k : ℤ) ≤ max then some (ring.pop k) else none

/-! ### Sequences of calls -/

inductive RingCall (α : Type)
  | complete (event : α)
  | setForceSyscall (value : Bool)
  /-- `late` and `k` are what the kernel does if the call has to wait -/
  | call (min_nr max : ℤ) (timeout : Option Timespec) (late : List α) (k : ℕ)

/-- What a call returns, from user space or from the system. -/
def getEvents (forceSysCall : Bool) (ring : AioRing α) (min_nr max : ℤ)
    (timeout : Option Timespec) (late : List α) (k : ℕ) : Option (List α × AioRing α) :=
  if 0 ≤ min_nr ∧ min_nr ≤ max then
    ((ringio_get_events forceSysCall ring min_nr max timeout).or
      (io_getevents ring min_nr max timeout)).or (io_getevents_waits ring max late k)
  else
    none

/-- What the calls of a sequence return, one after the other, and the ring at the
end. -/
def calls (forceSysCall : Bool) (ring : AioRing α) :
    List (RingCall α) → Option (List (List α) × AioRing α)
  | [] => some ([], ring)
  | .complete event :: ls => (ring.push event).bind fun ring => calls forceSysCall ring ls
  | .setForceSyscall value :: ls => calls value ring ls
  | .call min_nr max timeout late k :: ls =>
    (getEvents forceSysCall ring min_nr max timeout late k).bind fun r =>
      (calls forceSysCall r.2 ls).map fun rest => (r.1 :: rest.1, rest.2)

/-- All but the calls of `setForceSyscall`. -/
def RingCall.matters : RingCall α → Bool
  | .setForceSyscall _ => false
  | _ => true

/-! ### The reader alone -/

/-- Only the reader moves. -/
def Alone (_ : RingState α) (l : RingLabel α) : Prop := l = .step

/-- The reader leaves its call with the events and the ring `r`. -/
def RingState.leave (s : RingState α) (r : List α × AioRing α) : RingState α :=
  { s with ring := r.2, pc := .idle, returned := s.returned ++ r.1 }

theorem reader_step {s s' s'' : RingState α} (hn : ringNext s .step = some s')
    (h : Reaches ringNext Alone s' s'') : Reaches ringNext Alone s s'' :=
  .head (P := Alone) rfl hn h

/-- The small steps of the copy loop. -/
theorem copyLoop_steps {s : RingState α} {head : ℕ}
    (hpc : s.pc = .copy max head (events.length + n) needMod events) :
    Reaches ringNext Alone s (s.leave ((copyLoop s.ring needMod n head events).1,
      { s.ring with head := (copyLoop s.ring needMod n head events).2 })) := by
  induction n generalizing s head events with
  | zero =>
    refine reader_step ?_ (.refl _)
    simp [ringNext, reaperStep, hpc, copyLoop, RingState.leave]
  | succ n ih =>
    have hlen : (events ++ [s.ring.io_events head]).length + n = events.length + (n + 1) := by
      simp only [List.length_append, List.length_singleton]
      omega
    have hstep : ringNext s .step = some { s with
        pc := .copy max (ringAdvance s.ring.nr needMod head)
          ((events ++ [s.ring.io_events head]).length + n) needMod
          (events ++ [s.ring.io_events head]) } := by
      simp only [ringNext, reaperStep, hpc]
      rw [if_pos (by omega), hlen]
    exact reader_step hstep (ih rfl)

/-- **The reader that is left alone computes `ringio_get_events`.** -/
theorem ringio_get_events_steps {s : RingState α} (hpc : s.pc = .start min_nr max timeout) :
    Reaches ringNext Alone s
      (match ringio_get_events s.forceSysCall s.ring min_nr max timeout with
      | some r => s.leave r
      | none => { s with pc := .io_getevents max }) := by
  unfold ringio_get_events
  by_cases hu : s.forceSysCall = false ∧ has_usable_ring s.ring = true
  · have hstart : ringNext s .step = some { s with pc := .loadHead min_nr max timeout } := by
      simp only [ringNext, reaperStep, hpc, if_pos hu]
    rw [if_pos hu]
    apply reader_step hstart
    apply reader_step rfl
    rcases hr : ringReap s.ring.nr s.ring.head s.ring.tail min_nr max timeout with
      - | - | ⟨k, needMod⟩
    · refine reader_step ?_ (.refl _)
      simp [ringNext, reaperStep, hr, RingState.leave]
    · refine reader_step ?_ (.refl _)
      simp [ringNext, reaperStep, hr]
    · have hcopy : ringNext { s with pc := .loadTail min_nr max timeout s.ring.head } .step =
          some { s with pc := .copy max s.ring.head k needMod [] } := by
        simp only [ringNext, reaperStep, hr]
      apply reader_step hcopy
      have hnil : ReaperPc.copy max s.ring.head k needMod ([] : List α) =
          .copy max s.ring.head (([] : List α).length + k) needMod [] := by
        rw [List.length_nil, Nat.zero_add]
      exact copyLoop_steps hnil
  · rw [if_neg hu]
    refine reader_step ?_ (.refl _)
    simp only [ringNext, reaperStep, hpc, if_neg hu]

/-- The system call, in the small steps. -/
theorem io_getevents_step {s : RingState α} {r : List α × AioRing α}
    (hpc : s.pc = .io_getevents max) (hmax : 0 ≤ max)
    (hw : io_getevents s.ring min_nr max timeout = some r) :
    ∃ k, ringNext s (.io_getevents k) = some (s.leave r) := by
  simp only [io_getevents] at hw
  split at hw
  · obtain rfl := Option.some.inj hw
    refine ⟨Nat.min s.ring.count max.toNat, ?_⟩
    have hle : Nat.min s.ring.count max.toNat ≤ s.ring.count := Nat.min_le_left _ _
    have hle' : Nat.min s.ring.count max.toNat ≤ max.toNat := Nat.min_le_right _ _
    simp only [ringNext, hpc]
    rw [if_pos ⟨by omega, hle⟩]
    rfl
  · cases hw

/-! ### Counting and copying -/

namespace AioRing.Inside

/-- The events that are there, as a difference modulo `nr`. -/
theorem count_eq_emod (h : ring.Inside) :
    (ring.count : ℤ) = ((ring.tail : ℤ) - ring.head) % ring.nr := by
  have hh := h.head_lt
  rw [AioRing.count, Int.natCast_emod, Int.natCast_add, Int.natCast_sub hh.le]
  calc ((ring.tail : ℤ) + (ring.nr - ring.head)) % ring.nr
      = ((ring.tail : ℤ) - ring.head + ring.nr) % ring.nr := by congr 1; omega
    _ = ((ring.tail : ℤ) - ring.head) % ring.nr := Int.add_emod_right _ _

/-- The copy loop reads the window from `head` on, and its cursor ends behind it. -/
theorem copyLoop_eq (events : List α) (h : ring.Inside) (hn : i + n ≤ ring.count) :
    copyLoop ring (ring.nr ≤ toUnsigned (ring.head + (i + n))) n ((ring.head + i) % ring.nr)
        events = (events ++ window ring.io_events ring.nr (ring.head + i) n,
          (ring.head + (i + n)) % ring.nr) := by
  induction n generalizing i events with
  | zero => simp [copyLoop]
  | succ n ih =>
    have hadv := h.ringAdvance_eq (i := i) (n := i + (n + 1)) (by omega) hn
    have hsum : i + (n + 1) = i + 1 + n := by omega
    rw [copyLoop, hadv, hsum, ih _ (by omega), window_cons, List.append_assoc]
    rfl

/-- Nothing to remove. -/
theorem pop_zero (h : ring.Inside) : ring.pop 0 = ([], ring) := by
  rw [AioRing.pop, List.take_zero, Nat.add_zero, Nat.mod_eq_of_lt h.head_lt]

/-- How a call goes on, in terms of the events that are there. -/
theorem ringReap_eq (h : ring.Inside) :
    ringReap ring.nr ring.head ring.tail min_nr max timeout =
      if min_nr ≤ ring.count ∨ timeout = some ⟨0, 0⟩ then
        if ring.count = 0 then .none
        else if max ≤ ring.count then .io_getevents
        else .copy ring.count (ring.nr ≤ toUnsigned (ring.head + ring.count))
      else .io_getevents := by
  simp only [ringReap, h.ringAvailable_eq, Int.natCast_eq_zero]
  split
  · split
    · rfl
    · split
      · rfl
      · rw [if_pos (by omega), Int.toNat_natCast]
  · rfl

/-- A call answered in user space takes all events, and the caller has room for more. -/
theorem ringio_get_events_eq (h : ring.Inside) :
    ringio_get_events forceSysCall ring min_nr max timeout =
      if (forceSysCall = false ∧ has_usable_ring ring = true) ∧
        (min_nr ≤ ring.count ∨ timeout = some ⟨0, 0⟩) ∧
        (ring.count = 0 ∨ ring.count < max) then
        some (ring.pop ring.count)
      else
        none := by
  unfold ringio_get_events
  by_cases hu : forceSysCall = false ∧ has_usable_ring ring = true
  · rw [if_pos hu, h.ringReap_eq]
    by_cases hmin : min_nr ≤ ring.count ∨ timeout = some ⟨0, 0⟩
    · rw [if_pos hmin]
      by_cases hzero : ring.count = 0
      · rw [if_pos hzero, if_pos ⟨hu, hmin, .inl hzero⟩, hzero, h.pop_zero]
      · rw [if_neg hzero]
        by_cases hmax : max ≤ ring.count
        · rw [if_pos hmax, if_neg (by omega)]
        · have hcopy := copyLoop_eq (i := 0) (n := ring.count) [] h (by omega)
          rw [Nat.zero_add, Nat.add_zero, Nat.mod_eq_of_lt h.head_lt] at hcopy
          rw [if_neg hmax, if_pos ⟨hu, hmin, .inr (by omega)⟩]
          simp only [hcopy, AioRing.pop, AioRing.pending, List.nil_append]
          rw [List.take_of_length_le (by simp)]
    · rw [if_neg hmin, if_neg (fun hc => hmin hc.2.1)]
  · rw [if_neg hu, if_neg (fun hc => hu hc.1)]

/-- **Where a call is answered in user space, `io_getevents` would have returned the
same events and left the same ring.** -/
theorem ringio_get_events_agrees (h : ring.Inside) {r : List α × AioRing α}
    (hf : ringio_get_events forceSysCall ring min_nr max timeout = some r) :
    io_getevents ring min_nr max timeout = some r := by
  rw [h.ringio_get_events_eq] at hf
  split at hf
  · rename_i hc
    obtain ⟨-, hmin, hmax⟩ := hc
    have hall : Nat.min ring.count max.toNat = ring.count := Nat.min_eq_left (by omega)
    rw [io_getevents, if_pos hmin, hall, ← hf]
  · cases hf

/-! ### Calls in sequence -/

/-- `forceSysCall` makes no difference to a call. -/
theorem getEvents_eq (h : ring.Inside) (late : List α) (k : ℕ) :
    getEvents forceSysCall ring min_nr max timeout late k =
      getEvents true ring min_nr max timeout late k := by
  simp only [getEvents]
  congr 2
  rcases hf : ringio_get_events forceSysCall ring min_nr max timeout with - | r
  · rfl
  · rw [h.ringio_get_events_agrees hf]
    rfl

theorem push_inside (h : ring.Inside) {event : α} (hp : ring.push event = some ring') :
    ring'.Inside := by
  simp only [AioRing.push] at hp
  split at hp
  · obtain rfl := Option.some.inj hp
    have hlt := h.head_lt
    exact ⟨h.nr_lt, h.head_lt, Nat.mod_lt _ (by omega)⟩
  · cases hp

theorem pop_inside (h : ring.Inside) (k : ℕ) : (ring.pop k).2.Inside := by
  have hlt := h.head_lt
  exact ⟨h.nr_lt, Nat.mod_lt _ (by omega), h.tail_lt⟩

theorem foldlM_push_inside (h : ring.Inside) {late : List α}
    (hp : late.foldlM AioRing.push ring = some ring') : ring'.Inside := by
  induction late generalizing ring with
  | nil =>
    obtain rfl := Option.some.inj hp
    exact h
  | cons event late ih =>
    obtain ⟨ring₁, hpush, hp⟩ := Option.bind_eq_some_iff.mp hp
    exact ih (h.push_inside hpush) hp

/-- Whatever answers a call, the ring stays well formed. -/
theorem getEvents_inside (h : ring.Inside) {late : List α} {k : ℕ} {r : List α × AioRing α}
    (hg : getEvents forceSysCall ring min_nr max timeout late k = some r) : r.2.Inside := by
  rw [h.getEvents_eq] at hg
  simp only [getEvents] at hg
  split at hg
  · rcases Option.or_eq_some_iff.mp hg with hw | ⟨-, hw⟩
    · have hw : io_getevents ring min_nr max timeout = some r := hw
      simp only [io_getevents] at hw
      split at hw
      · obtain rfl := Option.some.inj hw
        exact h.pop_inside _
      · cases hw
    · obtain ⟨ring₁, hpush, hw⟩ := Option.bind_eq_some_iff.mp hw
      split at hw
      · obtain rfl := Option.some.inj hw
        exact (h.foldlM_push_inside hpush).pop_inside _
      · cases hw
  · cases hg

/-- **Only the calls and the completions matter to a sequence.** -/
theorem calls_filter (forceSysCall : Bool) (h : ring.Inside) (ls : List (RingCall α)) :
    calls forceSysCall ring ls = calls true ring (ls.filter RingCall.matters) := by
  induction ls generalizing forceSysCall ring with
  | nil => rfl
  | cons l ls ih =>
    cases l with
    | complete event =>
      show (ring.push event).bind _ = (ring.push event).bind _
      rcases hp : ring.push event with - | ring₁
      · rfl
      · exact ih forceSysCall (h.push_inside hp)
    | setForceSyscall value => exact ih value h
    | call min_nr max timeout late k =>
      show (getEvents _ _ _ _ _ _ _).bind _ = _
      rw [h.getEvents_eq]
      show _ = (getEvents true ring min_nr max timeout late k).bind _
      rcases hg : getEvents true ring min_nr max timeout late k with - | r
      · rfl
      · have hrest := ih forceSysCall (h.getEvents_inside hg)
        simp only [Option.bind_some, hrest]

end AioRing.Inside

/-- What a call returns in user space, with the ring before and after it. -/
structure FastPath (ring : AioRing α) (min_nr max : ℤ) (timeout : Option Timespec)
    (events : List α) (ring' : AioRing α) : Prop where
  length : (events.length : ℤ) = min (((ring.tail : ℤ) - ring.head) % ring.nr) max
  enough : min_nr ≤ events.length ∨ timeout = some ⟨0, 0⟩
  slots : ∀ i (hi : i < events.length),
    events[i] = ring.io_events ((ring.head + i) % ring.nr)
  head : ring' = { ring with head := (ring.head + events.length) % ring.nr }
  agrees : io_getevents ring min_nr max timeout = some (events, ring')

/-- **The fast path agrees with the system call**, call by call and, whatever
`forceSysCall` is set to in between, in every sequence of calls. -/
theorem fast_path_agrees (h : ring.Inside) :
    (∀ forceSysCall min_nr max timeout events ring', 0 ≤ min_nr → min_nr ≤ max →
      ringio_get_events forceSysCall ring min_nr max timeout = some (events, ring') →
        FastPath ring min_nr max timeout events ring') ∧
    ∀ (forceSysCall forceSysCall' : Bool) (ls ls' : List (RingCall α)),
      ls.filter RingCall.matters = ls'.filter RingCall.matters →
        calls forceSysCall ring ls = calls forceSysCall' ring ls' := by
  refine ⟨fun forceSysCall min_nr max timeout events ring' hmin hle hf => ?_, ?_⟩
  · have hagrees := h.ringio_get_events_agrees hf
    rw [h.ringio_get_events_eq] at hf
    split at hf
    · rename_i hc
      obtain ⟨-, henough, hroom⟩ := hc
      obtain ⟨hevents, rfl⟩ := Prod.mk.inj (Option.some.inj hf)
      have hall : events = window ring.io_events ring.nr ring.head ring.count := by
        rw [← hevents, AioRing.pending, List.take_of_length_le (by simp)]
      have hlen : events.length = ring.count := by simp [hall]
      refine ⟨?_, ?_, fun i hi => ?_, ?_, hagrees⟩
      · rw [hlen, ← h.count_eq_emod]
        omega
      · rwa [hlen]
      · have hget := window_getElem? (f := ring.io_events) (n := ring.nr) (s := ring.head)
          (k := ring.count) (hlen ▸ hi)
        rw [← hall, List.getElem?_eq_getElem hi] at hget
        exact Option.some.inj hget
      · rw [hlen]
    · cases hf
  · intro forceSysCall forceSysCall' ls ls' hsame
    rw [h.calls_filter forceSysCall, h.calls_filter forceSysCall', hsame]

/-- Two events around the end of a ring of four slots. -/
def AioRing.wrapped : AioRing ℕ :=
  ⟨4, 3, 1, AIO_RING_MAGIC, AIO_RING_INCOMPAT_FEATURES, fun i => 10 + i⟩

theorem fast_path_agrees_wrapped :
    ringio_get_events false .wrapped 1 8 none =
      some ([13, 10], { AioRing.wrapped with head := 1 }) ∧
    FastPath .wrapped 1 8 none [13, 10] { AioRing.wrapped with head := 1 } ∧
    calls false .wrapped
        [.call 1 2 none [] 0, .setForceSyscall true, .complete 20, .call 0 2 none [] 0] =
      calls true .wrapped
        [.call 1 2 none [] 0, .complete 20, .setForceSyscall false, .call 0 2 none [] 0] ∧
    (calls true .wrapped
      [.call 1 2 none [] 0, .complete 20, .setForceSyscall false, .call 0 2 none [] 0]).map
        Prod.fst = some [[13, 10], [20]] := by
  have hin : AioRing.wrapped.Inside := ⟨by decide, by decide, by decide⟩
  have hf : ringio_get_events false .wrapped 1 8 none =
      some ([13, 10], { AioRing.wrapped with head := 1 }) := rfl
  obtain ⟨hcall, hcalls⟩ := fast_path_agrees hin
  exact ⟨hf, hcall _ _ _ _ _ _ (by decide) (by decide) hf, hcalls _ _ _ _ rfl, by decide⟩

end ArtemisNative
