/-
ArtemisNative/Ring.lean

Reading the completion ring in user space.

The kernel maps the ring of completed events into the process.  It writes the
slot at `tail` and then advances `tail`; the library reads the slots from `head`
on and then advances `head`, so that no system call is needed.  The two run at
the same time, and `ringio_get_events` falls back to `io_getevents`, which
advances the same `head`, whenever the ring is not usable or the caller has no
room for everything that is there.

`RingState` is the ring together with the position of the one reader, which
goes through a call in separate steps: it loads `head`, loads `tail`, copies one
slot after the other and stores `head`.  The machine arithmetic of C is kept:
`unsigned` counters, and the conversion of their difference to `int`.

The ring is a queue (`toFifo`), oldest event first, whose contents are the slots
from `head` up to `tail`.  Every step is a step of that queue (`Sound.refines`).
-/
import ArtemisNative.Context
import ArtemisNative.Lib.Fifo
import ArtemisNative.Lib.Transition

namespace ArtemisNative

open Cyclic Transition

variable {α : Type}

/-! ### The ring -/

/-- `struct aio_ring`, as far as the library reads it. -/
structure AioRing (α : Type) where
  nr : ℕ
  head : ℕ
  tail : ℕ
  magic : ℕ
  incompat_features : ℕ
  io_events : ℕ → α

def AIO_RING_MAGIC : ℕ := 0xa10a10a1

def AIO_RING_INCOMPAT_FEATURES : ℕ := 0

def has_usable_ring (ring : AioRing α) : Bool :=
  ring.magic = AIO_RING_MAGIC && ring.incompat_features = AIO_RING_INCOMPAT_FEATURES

/-- The conversion of an `unsigned` value, or of a sum of such, to `int`. -/
def toInt (x : ℤ) : ℤ := (x + 2147483648) % 4294967296 - 2147483648

/-- The conversion to `unsigned`. -/
def toUnsigned (x : ℕ) : ℕ := x % 4294967296

/-- `struct timespec`. -/
structure Timespec where
  tv_sec : ℤ
  tv_nsec : ℤ
  deriving DecidableEq, Repr

/-- How a call goes on once it has loaded `head` and `tail`. -/
inductive Reap
  | none
  | io_getevents
  | copy (available_nr : ℕ) (needMod : Bool)
  deriving DecidableEq, Repr

/-- The number of events that `ringio_get_events` takes to be there. -/
def ringAvailable (ring_nr head tail : ℕ) : ℤ :=
  let available := toInt (tail - head)
  -- below zero a wrap has occurred
  if available < 0 then toInt (available + ring_nr) else available

def ringReap (ring_nr head tail : ℕ) (min_nr max : ℤ) (timeout : Option Timespec) : Reap :=
  let available := ringAvailable ring_nr head tail
  if min_nr ≤ available ∨ timeout = some ⟨0, 0⟩ then
    if available = 0 then .none
    else if max ≤ available then .io_getevents
    else
      let available_nr := (if available < max then available else max).toNat
      .copy available_nr (ring_nr ≤ toUnsigned (head + available_nr))
  else .io_getevents

/-- The cursor of the copy loop behind the slot `head`. -/
def ringAdvance (ring_nr : ℕ) (needMod : Bool) (head : ℕ) : ℕ :=
  if needMod then toUnsigned (head + 1) % ring_nr else toUnsigned (head + 1)

/-- The number of events between `head` and `tail`. -/
def AioRing.count (ring : AioRing α) : ℕ := (ring.tail + (ring.nr - ring.head)) % ring.nr

/-- The events between `head` and `tail`, oldest first. -/
def AioRing.pending (ring : AioRing α) : List α :=
  window ring.io_events ring.nr ring.head ring.count

/-! ### Reader, writer and their steps -/

/-- Where the reader is inside `ringio_get_events`. -/
inductive ReaperPc (α : Type)
  | idle
  | start (min_nr max : ℤ) (timeout : Option Timespec)
  | loadHead (min_nr max : ℤ) (timeout : Option Timespec)
  | loadTail (min_nr max : ℤ) (timeout : Option Timespec) (head : ℕ)
  | copy (max : ℤ) (head available_nr : ℕ) (needMod : Bool) (events : List α)
  | io_getevents (max : ℤ)

/-- The ring, the reader, the writer, and the histories of both. -/
structure RingState (α : Type) where
  ring : AioRing α
  forceSysCall : Bool
  pc : ReaperPc α
  /-- the kernel has written the slot at `tail` and not advanced `tail` -/
  written : Bool
  produced : List α
  returned : List α

inductive RingLabel (α : Type)
  | write (event : α)
  | publish
  | setForceSyscall (value : Bool)
  | call (min_nr max : ℤ) (timeout : Option Timespec)
  | step
  /-- `io_getevents` removes the `k` oldest events, none if it fails -/
  | io_getevents (k : ℕ)

def reaperStep (s : RingState α) : ReaperPc α → Option (RingState α)
  | .idle => none
  | .start min_nr max timeout =>
    if s.forceSysCall = false ∧ has_usable_ring s.ring = true then
      some { s with pc := .loadHead min_nr max timeout }
    else
      some { s with pc := .io_getevents max }
  | .loadHead min_nr max timeout =>
    some { s with pc := .loadTail min_nr max timeout s.ring.head }
  | .loadTail min_nr max timeout head =>
    match ringReap s.ring.nr head s.ring.tail min_nr max timeout with
    | .none => some { s with pc := .idle }
    | .io_getevents => some { s with pc := .io_getevents max }
    | .copy available_nr needMod => some { s with pc := .copy max head available_nr needMod [] }
  | .copy max head available_nr needMod events =>
    if events.length < available_nr then
      some { s with
        pc := .copy max (ringAdvance s.ring.nr needMod head) available_nr needMod
          (events ++ [s.ring.io_events head]) }
    else
      some { s with
        ring := { s.ring with head := head }
        pc := .idle
        returned := s.returned ++ events }
  | .io_getevents _ => none

def ringNext (s : RingState α) : RingLabel α → Option (RingState α)
  | .write event =>
    if (s.ring.tail + 1) % s.ring.nr ≠ s.ring.head then
      some { s with
        ring := { s.ring with
          io_events := Function.update s.ring.io_events s.ring.tail event }
        written := true }
    else
      none
  | .publish =>
    if s.written then
      some { s with
        ring := { s.ring with tail := (s.ring.tail + 1) % s.ring.nr }
        written := false
        produced := s.produced ++ [s.ring.io_events s.ring.tail] }
    else
      none
  | .setForceSyscall value => some { s with forceSysCall := value }
  | .call min_nr max timeout =>
    match s.pc with
    | .idle =>
      if 0 ≤ min_nr ∧ min_nr ≤ max then some { s with pc := .start min_nr max timeout } else none
    | _ => none
  | .step => reaperStep s s.pc
  | .io_getevents k =>
    match s.pc with
    | .io_getevents max =>
      if k ≤ max ∧ k ≤ s.ring.count then
        some { s with
          ring := { s.ring with head := (s.ring.head + k) % s.ring.nr }
          pc := .idle
          returned := s.returned ++ s.ring.pending.take k }
      else
        none
    | _ => none

/-- A ring outside all calls. -/
def RingState.initial (ring : AioRing α) (forceSysCall : Bool) : RingState α where
  ring := ring
  forceSysCall := forceSysCall
  pc := .idle
  written := false
  produced := ring.pending
  returned := []

/-! ### Cursors -/

/-- The cursors are inside an array whose size is a positive `int`. -/
structure AioRing.Inside (ring : AioRing α) : Prop where
  nr_lt : ring.nr < 2147483648
  head_lt : ring.head < ring.nr
  tail_lt : ring.tail < ring.nr

namespace AioRing.Inside

variable {ring : AioRing α} {k : ℕ}

theorem count_eq (h : ring.Inside) :
    ring.count = if ring.head ≤ ring.tail then ring.tail - ring.head
      else ring.tail + ring.nr - ring.head := by
  have hh := h.head_lt
  have ht := h.tail_lt
  rw [AioRing.count, add_mod_wrap ht (by omega)]
  split <;> split <;> omega

theorem count_lt (h : ring.Inside) : ring.count < ring.nr :=
  Nat.mod_lt _ (Nat.zero_lt_of_lt h.head_lt)

/-- The slot behind the pending events is the one at `tail`. -/
theorem head_add_count (h : ring.Inside) : (ring.head + ring.count) % ring.nr = ring.tail := by
  have hh := h.head_lt
  have ht := h.tail_lt
  rw [add_mod_wrap hh h.count_lt.le, h.count_eq]
  split <;> split <;> omega

/-- The room the writer looks for. -/
theorem has_room_iff (h : ring.Inside) :
    (ring.tail + 1) % ring.nr ≠ ring.head ↔ ring.count + 1 < ring.nr := by
  have hh := h.head_lt
  have ht := h.tail_lt
  rw [add_mod_wrap ht (by omega), h.count_eq]
  split <;> split <;> omega

/-- In the arithmetic of C the events that are there are counted correctly. -/
theorem ringAvailable_eq (h : ring.Inside) :
    ringAvailable ring.nr ring.head ring.tail = ring.count := by
  have hn := h.nr_lt
  have hh := h.head_lt
  have ht := h.tail_lt
  have hc := h.count_eq
  have hdiff : toInt (ring.tail - ring.head) = ring.tail - ring.head := by
    unfold toInt
    omega
  simp only [ringAvailable, hdiff]
  by_cases hwrap : (ring.tail : ℤ) - ring.head < 0
  · rw [if_pos hwrap, hc, if_neg (by omega), toInt]
    omega
  · rw [if_neg hwrap, hc, if_pos (by omega)]
    omega

/-- The copy loop advances as the ring does: it leaves the remainder out only
where no wrap can happen. -/
theorem ringAdvance_eq (h : ring.Inside) {i n : ℕ} (hi : i < n) (hn : n ≤ ring.count) :
    ringAdvance ring.nr (ring.nr ≤ toUnsigned (ring.head + n)) ((ring.head + i) % ring.nr)
      = (ring.head + (i + 1)) % ring.nr := by
  have hnr := h.nr_lt
  have hh := h.head_lt
  have hc := h.count_lt
  have hlt : (ring.head + i) % ring.nr < ring.nr := Nat.mod_lt _ (by omega)
  have hsum : toUnsigned (ring.head + n) = ring.head + n := Nat.mod_eq_of_lt (by omega)
  have hnext : toUnsigned ((ring.head + i) % ring.nr + 1) = (ring.head + i) % ring.nr + 1 :=
    Nat.mod_eq_of_lt (by omega)
  rw [ringAdvance, hsum, hnext]
  by_cases hwrap : ring.nr ≤ ring.head + n
  · rw [if_pos (by simpa using hwrap), Nat.mod_add_mod, Nat.add_assoc]
  · rw [if_neg (by simpa using hwrap), Nat.mod_eq_of_lt (by omega), Nat.mod_eq_of_lt (by omega)]
    omega

/-- Advancing `head` over `k` pending events leaves the others. -/
theorem advance_head (h : ring.Inside) (hk : k ≤ ring.count) :
    let ring' := { ring with head := (ring.head + k) % ring.nr }
    ring'.Inside ∧ ring'.pending = ring.pending.drop k := by
  have hh := h.head_lt
  have ht := h.tail_lt
  have hc := h.count_lt
  have hin : ({ ring with head := (ring.head + k) % ring.nr } : AioRing α).Inside :=
    ⟨h.nr_lt, Nat.mod_lt _ (by omega), h.tail_lt⟩
  have hcount : ({ ring with head := (ring.head + k) % ring.nr } : AioRing α).count
      = ring.count - k := by
    have heq := h.count_eq
    rw [hin.count_eq]
    simp only
    rw [add_mod_wrap hh (by omega)]
    split at heq <;> split <;> split <;> omega
  refine ⟨hin, ?_⟩
  rw [AioRing.pending, hcount, AioRing.pending, window_drop hk]
  exact window_mod

/-- Advancing `tail` makes the slot there the last pending event. -/
theorem advance_tail (h : ring.Inside) (hroom : ring.count + 1 < ring.nr) :
    let ring' := { ring with tail := (ring.tail + 1) % ring.nr }
    ring'.Inside ∧ ring'.count = ring.count + 1 ∧
      ring'.pending = ring.pending ++ [ring.io_events ring.tail] := by
  have hh := h.head_lt
  have ht := h.tail_lt
  have hin : ({ ring with tail := (ring.tail + 1) % ring.nr } : AioRing α).Inside :=
    ⟨h.nr_lt, h.head_lt, Nat.mod_lt _ (by omega)⟩
  have hcount : ({ ring with tail := (ring.tail + 1) % ring.nr } : AioRing α).count
      = ring.count + 1 := by
    have heq := h.count_eq
    rw [hin.count_eq]
    simp only
    rw [add_mod_wrap ht (by omega)]
    split at heq <;> split <;> split <;> omega
  refine ⟨hin, hcount, ?_⟩
  rw [AioRing.pending, hcount]
  simp only
  rw [window_succ, h.head_add_count]
  rfl

/-- The slot at `tail` is none of the pending ones. -/
theorem slot_ne_tail (h : ring.Inside) {i : ℕ} (hi : i < ring.count) :
    (ring.head + i) % ring.nr ≠ ring.tail := by
  intro he
  rw [← h.head_add_count] at he
  have hc := h.count_lt
  have := slot_injective (by omega) hc he
  omega

end AioRing.Inside

/-! ### The invariant -/

/-- What the reader knows at its place in a call. -/
def ReaperPc.Knows (ring : AioRing α) : ReaperPc α → Prop
  | .idle => True
  | .start min_nr max _ | .loadHead min_nr max _ => 0 ≤ min_nr ∧ min_nr ≤ max
  | .loadTail min_nr max _ head => (0 ≤ min_nr ∧ min_nr ≤ max) ∧ head = ring.head
  | .copy max head available_nr needMod events =>
    available_nr ≤ ring.count ∧ available_nr ≤ max ∧ events.length ≤ available_nr ∧
    needMod = decide (ring.nr ≤ toUnsigned (ring.head + available_nr)) ∧
    head = (ring.head + events.length) % ring.nr ∧
    events = ring.pending.take events.length
  | .io_getevents max => 0 ≤ max

structure RingState.Sound (s : RingState α) : Prop where
  inside : s.ring.Inside
  room : s.written = true → s.ring.count + 1 < s.ring.nr
  knows : s.pc.Knows s.ring

/-- The ring as a queue. -/
def RingState.toFifo (s : RingState α) : Fifo α := ⟨s.produced, s.returned, s.ring.pending⟩

/-- A ring that only gained a pending event behind the others. -/
theorem ReaperPc.Knows.mono {ring ring' : AioRing α} {pc : ReaperPc α} (h : pc.Knows ring)
    (hnr : ring'.nr = ring.nr) (hhead : ring'.head = ring.head)
    (hpend : ring.pending <+: ring'.pending) : pc.Knows ring' := by
  cases pc with
  | idle | start _ _ _ | loadHead _ _ _ | io_getevents _ => exact h
  | loadTail min_nr max timeout head => exact ⟨h.1, h.2.trans hhead.symm⟩
  | copy max head available_nr needMod events =>
    obtain ⟨hcount, hmax, hlen, hmod, hcur, hev⟩ := h
    have hle : ring.count ≤ ring'.count := by simpa [AioRing.pending] using hpend.length_le
    refine ⟨by omega, hmax, hlen, by rw [hnr, hhead]; exact hmod, by rw [hnr, hhead]; exact hcur, ?_⟩
    obtain ⟨rest, hrest⟩ := hpend
    rw [← hrest, List.take_append_of_le_length (by simp [AioRing.pending]; omega)]
    exact hev

/-- What the reader decides to copy is there, and fits. -/
theorem ringReap_copy {ring : AioRing α} {min_nr max : ℤ} {timeout : Option Timespec} {n : ℕ}
    {needMod : Bool} (h : ring.Inside)
    (hr : ringReap ring.nr ring.head ring.tail min_nr max timeout = .copy n needMod) :
    n = ring.count ∧ (n : ℤ) < max ∧
      needMod = decide (ring.nr ≤ toUnsigned (ring.head + n)) := by
  simp only [ringReap, h.ringAvailable_eq] at hr
  split at hr
  · split at hr
    · cases hr
    · split at hr
      · cases hr
      · rename_i hmax
        rw [if_pos (by omega), Int.toNat_natCast] at hr
        injection hr with hn hmod
        subst hn
        exact ⟨rfl, by omega, hmod.symm⟩
  · cases hr

/-- The reader removes the `k` oldest events and leaves the call. -/
theorem AioRing.Inside.popped {s : RingState α} {k : ℕ} (hin : s.ring.Inside)
    (hroom : s.written = true → s.ring.count + 1 < s.ring.nr) (hk : k ≤ s.ring.count) :
    let s' : RingState α := { s with
      ring := { s.ring with head := (s.ring.head + k) % s.ring.nr }
      pc := .idle
      returned := s.returned ++ s.ring.pending.take k }
    s'.Sound ∧ Fifo.Step s.toFifo s'.toFifo := by
  obtain ⟨hin', hpend⟩ := hin.advance_head hk
  refine ⟨⟨hin', fun hw => ?_, trivial⟩, ?_⟩
  · have hlen := congrArg List.length hpend
    have := hroom hw
    simp only [AioRing.pending, length_window, List.length_drop] at hlen
    simp only
    omega
  · simp only [RingState.toFifo, hpend]
    exact .pop (q := s.toFifo) k

/-- **Every step of reader and writer is a step of the queue.** -/
theorem RingState.Sound.refines {s s' : RingState α} {l : RingLabel α} (h : s.Sound)
    (hn : ringNext s l = some s') : s'.Sound ∧ Fifo.Step s.toFifo s'.toFifo := by
  obtain ⟨hin, hroom, hknows⟩ := h
  cases l with
  | write event =>
    simp only [ringNext] at hn
    split at hn
    · rename_i hg
      obtain rfl := Option.some.inj hn
      have hpend : ({ s.ring with
          io_events := Function.update s.ring.io_events s.ring.tail event } : AioRing α).pending
          = s.ring.pending := window_update_of_ne fun i hi => hin.slot_ne_tail hi
      refine ⟨⟨⟨hin.nr_lt, hin.head_lt, hin.tail_lt⟩, fun _ => hin.has_room_iff.mp hg,
        hknows.mono rfl rfl (by rw [hpend])⟩, ?_⟩
      simp only [RingState.toFifo, hpend]
      exact .idle
    · cases hn
  | publish =>
    simp only [ringNext] at hn
    split at hn
    · rename_i hw
      obtain rfl := Option.some.inj hn
      obtain ⟨hin', -, hpend⟩ := hin.advance_tail (hroom hw)
      refine ⟨⟨hin', nofun, hknows.mono rfl rfl ?_⟩, ?_⟩
      · rw [hpend]
        exact List.prefix_append _ _
      · simp only [RingState.toFifo, hpend]
        exact .push (q := s.toFifo) _
    · cases hn
  | setForceSyscall value =>
    obtain rfl := Option.some.inj hn
    exact ⟨⟨hin, hroom, hknows⟩, .idle⟩
  | call min_nr max timeout =>
    simp only [ringNext] at hn
    split at hn
    · split at hn
      · rename_i hle
        obtain rfl := Option.some.inj hn
        exact ⟨⟨hin, hroom, hle⟩, .idle⟩
      · cases hn
    · cases hn
  | io_getevents k =>
    simp only [ringNext] at hn
    split at hn
    · split at hn
      · rename_i hk
        obtain rfl := Option.some.inj hn
        exact hin.popped hroom hk.2
      · cases hn
    · cases hn
  | step =>
    simp only [ringNext] at hn
    rcases hpc : s.pc with - | ⟨min_nr, max, timeout⟩ | ⟨min_nr, max, timeout⟩ |
      ⟨min_nr, max, timeout, head⟩ | ⟨max, head, n, needMod, events⟩ | max <;>
      rw [hpc] at hn hknows
    · cases hn
    · simp only [reaperStep] at hn
      split at hn <;> obtain rfl := Option.some.inj hn
      · exact ⟨⟨hin, hroom, hknows⟩, .idle⟩
      · exact ⟨⟨hin, hroom, hknows.1.trans hknows.2⟩, .idle⟩
    · obtain rfl := Option.some.inj hn
      exact ⟨⟨hin, hroom, hknows, rfl⟩, .idle⟩
    · obtain ⟨hle, rfl⟩ := hknows
      simp only [reaperStep] at hn
      split at hn <;> obtain rfl := Option.some.inj hn
      · exact ⟨⟨hin, hroom, trivial⟩, .idle⟩
      · exact ⟨⟨hin, hroom, hle.1.trans hle.2⟩, .idle⟩
      · rename_i n needMod hr
        obtain ⟨hcount, hmax, hmod⟩ := ringReap_copy hin hr
        refine ⟨⟨hin, hroom, hcount.le, hmax.le, Nat.zero_le _, hmod, ?_, rfl⟩, .idle⟩
        exact (Nat.mod_eq_of_lt hin.head_lt).symm
    · obtain ⟨hcount, hmax, hlen, hmod, hcur, hev⟩ := hknows
      simp only [reaperStep] at hn
      split at hn <;> obtain rfl := Option.some.inj hn
      · rename_i hlt
        -- the slot at the cursor is the next pending event
        have hslot : s.ring.pending.take (events.length + 1)
            = s.ring.pending.take events.length ++ [s.ring.io_events head] := by
          rw [List.take_add_one, AioRing.pending, window_getElem? (by omega), hcur]
          rfl
        refine ⟨⟨hin, hroom, hcount, hmax, ?_, hmod, ?_, ?_⟩, .idle⟩
        · rw [List.length_append]
          exact hlt
        · rw [List.length_append, hmod, hcur]
          exact hin.ringAdvance_eq hlt hcount
        · rw [List.length_append, List.length_singleton, hslot, ← hev]
      · have hall : events.length ≤ s.ring.count := by omega
        have hpop := hin.popped hroom hall
        rw [← hcur, ← hev] at hpop
        exact hpop
    · cases hn

/-- No step changes the slot of a pending event: only its reader takes it out of
the ring, and then it has been copied. -/
theorem AioRing.Inside.slot_kept {s s' : RingState α} {l : RingLabel α} (hin : s.ring.Inside)
    (hn : ringNext s l = some s') {i : ℕ} (hi : i < s.ring.count) :
    s'.ring.io_events ((s.ring.head + i) % s.ring.nr)
      = s.ring.io_events ((s.ring.head + i) % s.ring.nr) := by
  cases l with
  | write event =>
    simp only [ringNext] at hn
    split at hn
    · obtain rfl := Option.some.inj hn
      exact Function.update_of_ne (hin.slot_ne_tail hi) _ _
    · cases hn
  | setForceSyscall value =>
    obtain rfl := Option.some.inj hn
    rfl
  | step =>
    simp only [ringNext] at hn
    unfold reaperStep at hn
    repeat' split at hn
    all_goals cases hn
    all_goals rfl
  | publish | call _ _ _ | io_getevents _ =>
    simp only [ringNext] at hn
    repeat' split at hn
    all_goals cases hn
    all_goals rfl

/-! ### Runs -/

theorem RingState.Sound.of_reaches {ring : AioRing α} {forceSysCall : Bool} {s : RingState α}
    (hin : ring.Inside)
    (hr : Reaches ringNext (fun _ _ => True) (.initial ring forceSysCall) s) :
    s.Sound ∧ s.toFifo.Lawful := by
  refine hr.invariant (I := fun s => s.Sound ∧ s.toFifo.Lawful)
    ⟨⟨hin, nofun, trivial⟩, Fifo.lawful_start _⟩ ?_
  rintro s l s' ⟨hs, hlaw⟩ - hn
  obtain ⟨hs', hstep⟩ := hs.refines hn
  exact ⟨hs', hstep.lawful hlaw⟩

/-- **The ring loses, duplicates and reorders nothing**, whatever the kernel and
the reader do in between and whatever `forceSysCall` is set to. -/
theorem ring_fifo {ring : AioRing α} {forceSysCall : Bool} {s : RingState α}
    (hin : ring.Inside)
    (hr : Reaches ringNext (fun _ _ => True) (.initial ring forceSysCall) s) :
    s.returned ++ s.ring.pending = s.produced ∧ s.ring.head < s.ring.nr ∧
    (∀ max head available_nr needMod events,
      s.pc = .copy max head available_nr needMod events →
        events = s.ring.pending.take events.length) ∧
    (∀ l s', ringNext s l = some s' → ∀ i < s.ring.count,
      s'.ring.io_events ((s.ring.head + i) % s.ring.nr)
        = s.ring.io_events ((s.ring.head + i) % s.ring.nr)) := by
  obtain ⟨hs, hlaw⟩ := RingState.Sound.of_reaches hin hr
  refine ⟨hlaw, hs.inside.head_lt, ?_, fun l s' hn i hi => hs.inside.slot_kept hn hi⟩
  intro max head available_nr needMod events hpc
  have hknows := hs.knows
  rw [hpc] at hknows
  exact hknows.2.2.2.2.2

/-- Two events around the end of a ring of four slots, read while a third one
arrives. -/
theorem ring_fifo_wrap : ∃ s : RingState ℕ,
    Reaches ringNext (fun _ _ => True)
      (.initial ⟨4, 3, 3, AIO_RING_MAGIC, AIO_RING_INCOMPAT_FEATURES, fun _ => 0⟩ false) s ∧
    s.returned = [10, 11] ∧ s.returned ++ s.ring.pending = s.produced := by
  obtain ⟨s, hr, hret⟩ := exists_of_exec ringNext (fun _ _ => True)
    (.initial ⟨4, 3, 3, AIO_RING_MAGIC, AIO_RING_INCOMPAT_FEATURES, fun _ => 0⟩ false)
    [.write 10, .publish, .write 11, .publish, .call 1 8 none, .step, .step, .step,
      .step, .write 12, .publish, .step, .step]
    (fun s => s.returned = [10, 11]) (by decide)
  exact ⟨s, hr, hret, (ring_fifo ⟨by decide, by decide, by decide⟩ hr).1⟩

end ArtemisNative
