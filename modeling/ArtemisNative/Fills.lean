/-
ArtemisNative/Fills.lean

Filling files from many threads.

`fill` takes `oneMegaMutex` for as long as `verifyBuffer` runs, and then reads
`oneMegaBuffer` without it, at each of its writes.  Here every statement is a step of its
own thread: the buffer is allocated in one step, whatever its memory contains, and cleared
in pieces, while other threads may be anywhere in their loops.

A call whose `verifyBuffer` returned 0 does not notice any of this: the buffer is there and
cleared, it never changes again, and the call comes out as `LibaioContext.fill` says for one
thread alone.  But the result of `verifyBuffer` is not looked at.  A call whose own
`posix_memalign` failed goes on, and if another thread has allocated the buffer meanwhile
and is still clearing it, it writes what was in that memory before (`garbage_written`).
`concurrent_fills` says that this is the only way in which anything but zeros gets into a
file, and that the buffer is allocated once.
-/
import ArtemisNative.Fill
import ArtemisNative.Lib.Transition

namespace ArtemisNative

open Transition

namespace Fill

/-! ### The threads -/

/-- The arguments of a call, with the descriptor's offset and what its writes come to.  The
descriptor is the call's own: no other call moves the offset. -/
structure Call where
  disk : Disk
  position : ℕ
  alignment : ℤ
  size : ℤ

/-- Where a call is. -/
inductive FillPc
  | lock
  | test
  | memalign
  /-- `memset`, with the bytes below `i` cleared -/
  | memset (i : ℕ)
  | unlock (res : ℤ)
  | lseek
  /-- the loop, with `i` blocks to go -/
  | block (i : ℕ)
  | rest
  | lseekBack
  | returned (thrown : Option Thrown)
  deriving DecidableEq, Repr

/-- The statements between `pthread_mutex_lock` and `pthread_mutex_unlock`. -/
def FillPc.locked : FillPc → Bool
  | .test => true
  | .memalign => true
  | .memset _ => true
  | .unlock _ => true
  | _ => false

def FillPc.clears : FillPc → Bool
  | .memset _ => true
  | _ => false

/-- The statements of `verifyBuffer`. -/
def FillPc.verifies (pc : FillPc) : Bool := pc = .lock || pc.locked

def FillPc.over : FillPc → Bool
  | .returned _ => true
  | _ => false

theorem FillPc.not_locked_of_over {pc : FillPc} (h : pc.over = true) : pc.locked = false := by
  cases pc with
  | returned thrown => rfl
  | _ => cases h

structure Running where
  call : Call
  pc : FillPc
  file : File
  /-- history: what `verifyBuffer` returned -/
  verified : Option ℤ
  /-- history: it has written while a thread was clearing the buffer -/
  raced : Bool

namespace Running

def start (c : Call) : Running where
  call := c
  pc := .lock
  file := { position := c.position }
  verified := none
  raced := false

def goto (r : Running) (pc : FillPc) : Running := { r with pc := pc }

def blocks (c : Call) : ℕ := (toInt (c.size.tdiv oneMega)).toNat

def rest (c : Call) : ℤ := toInt (c.size.tmod oneMega)

/-- One write, and where it leads. -/
def wrote (r : Running) (buffer : Option Memory) (clearing : Bool) (count : ℕ) (pc : FillPc)
    (message : String) : Running :=
  { r with
    file := (write r.call.disk buffer count r.file).2
    raced := r.raced || clearing
    pc :=
      if (write r.call.disk buffer count r.file).1 < 0 then
        .returned (some (.ioException message))
      else pc }

end Running

/-- The globals, and the calls that run or have returned last. -/
structure Fills (Tid : Type*) where
  oneMegaBuffer : Option Memory
  oneMegaMutex : Option Tid
  thread : Tid → Option Running
  /-- history: what `posix_memalign` returned -/
  allocated : List Memory

/-- What the environment decides in a step: the outcome of `posix_memalign`, and how far
`memset` gets. -/
structure Outside where
  memalign : Option Memory := none
  bytes : ℕ := 1

inductive FillLabel (Tid : Type*)
  | call (t : Tid) (c : Call)
  | step (t : Tid) (outside : Outside)

/-- A piece of `memset(oneMegaBuffer, 0, ONE_MEGA)`. -/
def clear (i j : ℕ) (m : Memory) : Memory :=
  { m with contents := fun p => if i ≤ p ∧ p < j ∧ p < oneMega then 0 else m.contents p }

namespace Fills

variable {Tid : Type*}

def initial : Fills Tid where
  oneMegaBuffer := none
  oneMegaMutex := none
  thread _ := none
  allocated := []

/-- A thread is clearing the buffer; it has the mutex. -/
def clearing (s : Fills Tid) : Bool :=
  (s.oneMegaMutex.bind s.thread).any fun r => r.pc.clears

variable [DecidableEq Tid]

def put (s : Fills Tid) (t : Tid) (r : Running) : Fills Tid :=
  { s with thread := Function.update s.thread t (some r) }

/-- One statement of `verifyBuffer` or `fill`. -/
def advance (s : Fills Tid) (t : Tid) (r : Running) (outside : Outside) : Option (Fills Tid) :=
  match r.pc with
  | .lock =>
    if s.oneMegaMutex = none then
      some { s.put t (r.goto .test) with oneMegaMutex := some t }
    else none
  | .test =>
    some (s.put t (r.goto (if s.oneMegaBuffer.isNone then .memalign else .unlock 0)))
  | .memalign =>
    match outside.memalign with
    | none => some (s.put t (r.goto (.unlock (-1))))
    | some m =>
      some { s.put t (r.goto (.memset 0)) with
        oneMegaBuffer := some m
        allocated := s.allocated ++ [m] }
  | .memset i =>
    some { s.put t (r.goto
        (if i + outside.bytes < oneMega then .memset (i + outside.bytes) else .unlock 0)) with
      oneMegaBuffer := s.oneMegaBuffer.map (clear i (i + outside.bytes)) }
  | .unlock res =>
    some { s.put t { r with pc := .lseek, verified := some res } with oneMegaMutex := none }
  | .lseek =>
    some (s.put t { r with pc := .block (Running.blocks r.call), file := r.file.lseek })
  | .block 0 => some (s.put t (r.goto .rest))
  | .block (i + 1) =>
    some (s.put t (r.wrote s.oneMegaBuffer s.clearing oneMega (.block i)
      "Cannot initialize file"))
  | .rest =>
    if Running.rest r.call ≠ 0 then
      some (s.put t (r.wrote s.oneMegaBuffer s.clearing (toSize (Running.rest r.call)) .lseekBack
        "Cannot initialize file with final rest"))
    else some (s.put t (r.goto .lseekBack))
  | .lseekBack =>
    some (s.put t { r with pc := .returned none, file := r.file.lseek })
  | .returned _ => none

def next (s : Fills Tid) : FillLabel Tid → Option (Fills Tid)
  | .call t c =>
    if (s.thread t).all fun r => r.pc.over then some (s.put t (.start c)) else none
  | .step t outside => (s.thread t).bind fun r => s.advance t r outside

end Fills

/-! ### What is left of a call -/

variable {disk : Disk} {buffer : Option Memory} {c : Call} {r : Running} {file : File}

/-- The rest of the file, and the end of the call. -/
def finishRest (buffer : Option Memory) (c : Call) (file : File) : Option Thrown × File :=
  if Running.rest c ≠ 0 then
    if (write c.disk buffer (toSize (Running.rest c)) file).1 < 0 then
      (some (.ioException "Cannot initialize file with final rest"),
        (write c.disk buffer (toSize (Running.rest c)) file).2)
    else (none, (write c.disk buffer (toSize (Running.rest c)) file).2.lseek)
  else (none, file.lseek)

/-- What a call comes to from a statement on, if the buffer stays as it is. -/
def finish (buffer : Option Memory) (c : Call) : FillPc → File → Option Thrown × File
  | .lseek, file =>
    match writeBlocks c.disk buffer (Running.blocks c) file.lseek with
    | (some e, file) => (some e, file)
    | (none, file) => finishRest buffer c file
  | .block i, file =>
    match writeBlocks c.disk buffer i file with
    | (some e, file) => (some e, file)
    | (none, file) => finishRest buffer c file
  | .rest, file => finishRest buffer c file
  | .lseekBack, file => (none, file.lseek)
  | .returned thrown, file => (thrown, file)
  | _, file => (none, file)

/-- From the first statement behind `verifyBuffer` on, it is what `fill` alone comes to. -/
theorem finish_lseek {process : Process} (memalign : Memalign c.alignment)
    (hbuffer : verified memalign process = buffer) :
    ((LibaioContext.fill c.disk memalign c.position c.size process).thrown,
      (LibaioContext.fill c.disk memalign c.position c.size process).file) =
        finish buffer c .lseek { position := c.position } := by
  subst hbuffer
  rcases hloop : writeBlocks c.disk (verified memalign process) (Running.blocks c)
    { position := 0 } with ⟨_ | e, file⟩
  · have hfinish : finish (verified memalign process) c .lseek { position := c.position } =
        finishRest (verified memalign process) c file := by
      show (match writeBlocks c.disk (verified memalign process) (Running.blocks c)
        { position := 0 } with | (some e, file) => _ | (none, file) => _) = _
      rw [hloop]
    rw [hfinish, finishRest]
    by_cases hrest : Running.rest c = 0
    · rw [fill_of_no_rest hloop hrest, if_neg (not_not.mpr hrest)]
    · rw [fill_of_rest hloop hrest, if_pos hrest, write_fst, Running.rest]
      split_ifs <;> rfl
  · rw [fill_of_failed hloop]
    show _ = (match writeBlocks c.disk (verified memalign process) (Running.blocks c)
      { position := 0 } with | (some e, file) => _ | (none, file) => _)
    rw [hloop]

theorem finish_block_zero (h : r.pc = .block 0) :
    finish buffer r.call .rest r.file = finish buffer r.call r.pc r.file := by
  rw [h]
  rfl

theorem finish_block_succ {i : ℕ} (b : Bool) (h : r.pc = .block (i + 1)) :
    finish buffer r.call (r.wrote buffer b oneMega (.block i) "Cannot initialize file").pc
        (r.wrote buffer b oneMega (.block i) "Cannot initialize file").file =
      finish buffer r.call r.pc r.file := by
  rw [h]
  show finish buffer r.call (if (write r.call.disk buffer oneMega r.file).1 < 0 then _ else _)
      (write r.call.disk buffer oneMega r.file).2 =
    match writeBlocks r.call.disk buffer (i + 1) r.file with
    | (some e, file) => (some e, file)
    | (none, file) => finishRest buffer r.call file
  rw [writeBlocks_succ, write_fst]
  split_ifs <;> rfl

theorem finish_rest (b : Bool) (h : r.pc = .rest) (hrest : Running.rest r.call ≠ 0) :
    finish buffer r.call
        (r.wrote buffer b (toSize (Running.rest r.call)) .lseekBack
          "Cannot initialize file with final rest").pc
        (r.wrote buffer b (toSize (Running.rest r.call)) .lseekBack
          "Cannot initialize file with final rest").file =
      finish buffer r.call r.pc r.file := by
  rw [h]
  show finish buffer r.call
      (if (write r.call.disk buffer (toSize (Running.rest r.call)) r.file).1 < 0 then _ else _)
      (write r.call.disk buffer (toSize (Running.rest r.call)) r.file).2 =
    finishRest buffer r.call r.file
  rw [finishRest, if_pos hrest]
  split_ifs <;> rfl

theorem finish_no_rest (h : r.pc = .rest) (hrest : ¬Running.rest r.call ≠ 0) :
    finish buffer r.call .lseekBack r.file = finish buffer r.call r.pc r.file := by
  rw [h]
  exact (if_neg hrest).symm

/-! ### Zeros -/

/-- All that has been written is zeros. -/
def OnlyZeros (file : File) : Prop := ∀ p b, file.written p = some b → b = 0

def Cleared (buffer : Option Memory) : Prop := ∀ m ∈ buffer, ∀ i < oneMega, m.contents i = 0

theorem OnlyZeros.write {count : ℕ} (h : OnlyZeros file) (hcount : count ≤ oneMega)
    (hbuffer : Cleared buffer) : OnlyZeros (write disk buffer count file).2 := by
  cases buffer with
  | none => exact h
  | some m =>
    intro p b hb
    change (if file.position ≤ p ∧ p < file.position + (disk.write file.calls count).toNat then
      some (m.contents (p - file.position)) else file.written p) = some b at hb
    have hle := disk.le file.calls count
    split at hb
    · rw [← Option.some.inj hb]
      exact hbuffer m rfl _ (by omega)
    · exact h p b hb

theorem rest_le (c : Call) (hsize : 0 ≤ c.size) : toSize (Running.rest c) ≤ oneMega := by
  obtain ⟨size, hsize⟩ := Int.eq_ofNat_of_zero_le hsize
  have hlt : size % oneMega < 2 ^ 20 := Nat.mod_lt _ (by decide)
  rw [Running.rest, hsize, tmod_oneMega, toSize]
  unfold oneMega at *
  omega

theorem Cleared.none : Cleared none := by rintro m ⟨⟩

/-- The last piece of `memset`. -/
theorem cleared_clear {i j : ℕ} {m : Memory} (h : ∀ p < i, m.contents p = 0)
    (hj : oneMega ≤ j) : Cleared (some (clear i j m)) := by
  intro m' hm p hp
  obtain rfl := Option.mem_some.mp hm
  show (if i ≤ p ∧ p < j ∧ p < oneMega then 0 else m.contents p) = 0
  by_cases hi : i ≤ p
  · exact if_pos ⟨hi, by omega, hp⟩
  · rw [if_neg fun hc => hi hc.1, h p (by omega)]

theorem clear_lt {i j : ℕ} {m : Memory} (h : ∀ p < i, m.contents p = 0)
    (hj : j ≤ oneMega) : ∀ p < j, (clear i j m).contents p = 0 := by
  intro p hp
  show (if i ≤ p ∧ p < j ∧ p < oneMega then 0 else m.contents p) = 0
  by_cases hi : i ≤ p
  · exact if_pos ⟨hi, hp, by omega⟩
  · rw [if_neg fun hc => hi hc.1, h p (by omega)]

/-! ### One call beside the others -/

/-- What a call can rely on, for the buffer as it is and a thread that is clearing it or
not. -/
structure Fine (buffer : Option Memory) (clearing : Bool) (r : Running) : Prop where
  fresh : r.pc = .memalign → buffer = none
  cleared : ∀ i, r.pc = .memset i → ∃ m, buffer = some m ∧ i ≤ oneMega ∧
    ∀ p < i, m.contents p = 0
  /-- once `verifyBuffer` has succeeded the buffer is there and stays as it is -/
  ready : r.pc = .unlock 0 ∨ r.verified = some 0 → buffer.isSome ∧ clearing = false
  onlyZeros : 0 ≤ r.call.size → r.raced = false → OnlyZeros r.file
  raced : r.raced = true → r.verified ≠ some 0
  verifying : r.verified = none ↔ r.pc.verifies = true
  /-- nothing has been written in `verifyBuffer` -/
  untouched : r.verified = none → r.file = { position := r.call.position } ∧ r.raced = false
  result : r.verified = some 0 →
    finish buffer r.call r.pc r.file = finish buffer r.call .lseek { position := r.call.position }

theorem Fine.start (buffer : Option Memory) (clearing : Bool) (c : Call) :
    Fine buffer clearing (.start c) where
  fresh := by rintro ⟨⟩
  cleared := by rintro i ⟨⟩
  ready := by rintro (⟨⟨⟩⟩ | ⟨⟨⟩⟩)
  onlyZeros _ _ := by rintro p b ⟨⟩
  raced := by rintro ⟨⟩
  verifying := iff_of_true rfl rfl
  untouched _ := ⟨rfl, rfl⟩
  result := by rintro ⟨⟩

/-- The buffer changes under a call that is not in the lock. -/
theorem Fine.other {clearing : Bool} {buffer' : Option Memory} {clearing' : Bool}
    (h : Fine buffer clearing r) (hr : r.pc.locked = false)
    (hno : ¬(buffer.isSome ∧ clearing = false)) : Fine buffer' clearing' r where
  fresh hpc := by
    rw [hpc] at hr
    cases hr
  cleared i hpc := by
    rw [hpc] at hr
    cases hr
  ready hready := absurd (h.ready hready) hno
  onlyZeros := h.onlyZeros
  raced := h.raced
  verifying := h.verifying
  untouched := h.untouched
  result hv := absurd (h.ready (.inr hv)) hno

/-- A call goes on in `verifyBuffer`. -/
theorem Fine.goto {clearing clearing' : Bool} {buffer' : Option Memory} {pc : FillPc}
    (h : Fine buffer clearing r) (hpc : r.pc.verifies = true) (hpc' : pc.locked = true)
    (hfresh : pc = .memalign → buffer' = none)
    (hcleared : ∀ i, pc = .memset i → ∃ m, buffer' = some m ∧ i ≤ oneMega ∧
      ∀ p < i, m.contents p = 0)
    (hready : pc = .unlock 0 → buffer'.isSome ∧ clearing' = false) :
    Fine buffer' clearing' (r.goto pc) := by
  have hv : r.verified = none := h.verifying.mpr hpc
  have hnot : r.verified ≠ some 0 := by
    rw [hv]
    exact (Option.some_ne_none 0).symm
  refine ⟨hfresh, hcleared, ?_, h.onlyZeros, h.raced, iff_of_true hv ?_, h.untouched,
    fun hv' => absurd hv' hnot⟩
  · rintro (hpc | hv')
    · exact hready hpc
    · exact absurd hv' hnot
  · show (pc = .lock || pc.locked) = true
    rw [hpc', Bool.or_true]

/-- A call goes on behind `verifyBuffer`, and does not change the buffer. -/
theorem Fine.behind {clearing : Bool} {r' : Running} (h : Fine buffer clearing r)
    (hcall : r'.call = r.call) (hver : r'.verified = r.verified)
    (hbehind : r.pc.verifies = false) (hpc : r'.pc.verifies = false)
    (hzeros : 0 ≤ r.call.size → r'.raced = false → OnlyZeros r'.file)
    (hraced : r'.raced = true → r.raced = true ∨ clearing = true)
    (hresult : finish buffer r.call r'.pc r'.file = finish buffer r.call r.pc r.file) :
    Fine buffer clearing r' where
  verifying := by
    rw [hver, h.verifying, hbehind, hpc]
  fresh hpc' := by
    rw [hpc'] at hpc
    cases hpc
  cleared i hpc' := by
    rw [hpc'] at hpc
    cases hpc
  ready := by
    rintro (hpc' | hv')
    · rw [hpc'] at hpc
      cases hpc
    · exact h.ready (.inr (hver ▸ hv'))
  onlyZeros := hcall ▸ hzeros
  raced hr hv' := by
    rw [hver] at hv'
    rcases hraced hr with hr | hclearing
    · exact h.raced hr hv'
    · rw [(h.ready (.inr hv')).2] at hclearing
      cases hclearing
  untouched hv' := by
    rw [hver, h.verifying, hbehind] at hv'
    cases hv'
  result hv' := by
    rw [hcall, hresult]
    exact h.result (hver ▸ hv')

/-- `verifyBuffer` returns. -/
theorem Fine.returns {clearing : Bool} {res : ℤ} (h : Fine buffer clearing r)
    (hpc : r.pc = .unlock res) :
    Fine buffer clearing { r with pc := .lseek, verified := some res } := by
  have hv : r.verified = none := h.verifying.mpr (by rw [hpc]; rfl)
  obtain ⟨hfile, hraced⟩ := h.untouched hv
  refine ⟨by rintro ⟨⟩, by rintro i ⟨⟩, ?_, h.onlyZeros, ?_, iff_of_false ?_ ?_, ?_, ?_⟩
  · rintro (hpc' | hres)
    · cases hpc'
    · obtain rfl := Option.some.inj hres
      exact h.ready (.inl hpc)
  · intro hr
    exact absurd (hraced.symm.trans hr) Bool.false_ne_true
  · exact Option.some_ne_none res
  · rintro ⟨⟩
  · exact fun hv' => absurd hv' (Option.some_ne_none res)
  · intro _
    show finish buffer r.call .lseek r.file = _
    rw [hfile]

/-! ### All calls -/

namespace Fills

variable {Tid : Type*} {s s' : Fills Tid} {t u : Tid} {outside : Outside}

/-- The mutex, the buffer and the calls of a process. -/
structure Sound (s : Fills Tid) : Prop where
  holder : ∀ t, (∃ r, s.thread t = some r ∧ r.pc.locked = true) ↔ s.oneMegaMutex = some t
  buffer : s.clearing = false → Cleared s.oneMegaBuffer
  calls : ∀ t r, s.thread t = some r → Fine s.oneMegaBuffer s.clearing r
  allocated : s.allocated.length = if s.oneMegaBuffer.isSome then 1 else 0

theorem Sound.initial : (initial : Fills Tid).Sound where
  holder t := by
    constructor
    · rintro ⟨r, ⟨⟩, -⟩
    · rintro ⟨⟩
  buffer _ := Cleared.none
  calls := by rintro t r ⟨⟩
  allocated := rfl

variable [DecidableEq Tid]

theorem clearing_put {r' : Running} (hne : s.oneMegaMutex ≠ some t) :
    (s.put t r').clearing = s.clearing := by
  show ((s.oneMegaMutex.bind (Function.update s.thread t (some r'))).any _) = _
  rw [clearing]
  cases hm : s.oneMegaMutex with
  | none => rfl
  | some u =>
    have hut : u ≠ t := by
      rintro rfl
      exact hne hm
    rw [Option.bind_some, Option.bind_some, Function.update_of_ne hut]

omit [DecidableEq Tid] in
/-- The thread with the mutex decides whether the buffer is being cleared. -/
theorem clearing_of_holder (hm : s.oneMegaMutex = some t) (ht : s.thread t = some r) :
    s.clearing = r.pc.clears := by
  rw [clearing, hm, Option.bind_some, ht]
  rfl

omit [DecidableEq Tid] in
theorem clearing_of_free (hm : s.oneMegaMutex = none) : s.clearing = false := by
  rw [clearing, hm]
  rfl

/-- A statement that changes no global, and leaves the lock as it is. -/
theorem Sound.put {r' : Running} (h : s.Sound)
    (hholder : r'.pc.locked = true ↔ s.oneMegaMutex = some t)
    (hclearing : (s.put t r').clearing = s.clearing)
    (hfine : Fine s.oneMegaBuffer s.clearing r') : (s.put t r').Sound where
  holder u := by
    show (∃ r, Function.update s.thread t (some r') u = some r ∧ _) ↔ s.oneMegaMutex = some u
    by_cases hu : u = t
    · subst hu
      rw [Function.update_self, ← hholder]
      exact ⟨fun ⟨r, hr, hl⟩ => Option.some.inj hr ▸ hl, fun hl => ⟨r', rfl, hl⟩⟩
    · rw [Function.update_of_ne hu]
      exact h.holder u
  buffer hc := h.buffer (hclearing ▸ hc)
  calls u r hu := by
    rw [hclearing]
    change Function.update s.thread t (some r') u = some r at hu
    by_cases heq : u = t
    · subst heq
      rw [Function.update_self] at hu
      exact Option.some.inj hu ▸ hfine
    · rw [Function.update_of_ne heq] at hu
      exact h.calls u r hu
  allocated := h.allocated

/-- A statement of the thread that has the lock, or takes it: the globals change, and the
other calls have no buffer to rely on, or do not notice. -/
theorem Sound.alone (r' : Running) {buffer : Option Memory} {mutex : Option Tid}
    {allocated : List Memory} (h : s.Sound)
    (hothers : ∀ u r, u ≠ t → s.thread u = some r → r.pc.locked = false)
    (hmutex : mutex = if r'.pc.locked = true then some t else none)
    (hfine : Fine buffer r'.pc.clears r')
    (hbuffer : r'.pc.clears = false → Cleared buffer)
    (hunnoticed : (buffer = s.oneMegaBuffer ∧ r'.pc.clears = s.clearing) ∨
      ¬(s.oneMegaBuffer.isSome ∧ s.clearing = false))
    (hallocated : allocated.length = if buffer.isSome then 1 else 0) :
    Sound ⟨buffer, mutex, Function.update s.thread t (some r'), allocated⟩ := by
  have hclearing :
      clearing ⟨buffer, mutex, Function.update s.thread t (some r'), allocated⟩ =
        r'.pc.clears := by
    show ((mutex.bind (Function.update s.thread t (some r'))).any _) = _
    rw [hmutex]
    cases hl : r'.pc.locked with
    | true =>
      rw [if_pos rfl, Option.bind_some, Function.update_self]
      rfl
    | false =>
      rw [if_neg Bool.false_ne_true]
      cases hpc : r'.pc <;> first | rfl | (rw [hpc] at hl; cases hl)
  refine ⟨fun u => ?_, fun hc => hbuffer (hclearing ▸ hc), fun u r hu => ?_, hallocated⟩
  · show (∃ r, Function.update s.thread t (some r') u = some r ∧ _) ↔ mutex = some u
    rw [hmutex]
    by_cases hu : u = t
    · subst hu
      rw [Function.update_self]
      constructor
      · rintro ⟨r, hr, hl⟩
        rw [Option.some.inj hr, if_pos hl]
      · intro hif
        split at hif
        · exact ⟨r', rfl, ‹_›⟩
        · cases hif
    · rw [Function.update_of_ne hu]
      constructor
      · rintro ⟨r, hr, hl⟩
        rw [hothers u r hu hr] at hl
        cases hl
      · intro hif
        split at hif
        · exact absurd (Option.some.inj hif).symm hu
        · cases hif
  · rw [hclearing]
    change Function.update s.thread t (some r') u = some r at hu
    by_cases heq : u = t
    · subst heq
      rw [Function.update_self] at hu
      exact Option.some.inj hu ▸ hfine
    · rw [Function.update_of_ne heq] at hu
      rcases hunnoticed with ⟨rfl, hsame⟩ | hno
      · rw [hsame]
        exact h.calls u r hu
      · exact (h.calls u r hu).other (hothers u r heq hu) hno

/-- The statements of `verifyBuffer`, and its return. -/
theorem Sound.verifies (h : s.Sound) (ht : s.thread t = some r) (hpc : r.pc.verifies = true)
    (hn : s.advance t r outside = some s') : s'.Sound := by
  have hfine := h.calls t r ht
  -- the others are not in the lock
  have hothers : s.oneMegaMutex = none ∨ s.oneMegaMutex = some t →
      ∀ u r, u ≠ t → s.thread u = some r → r.pc.locked = false := by
    intro hw u r hne hu
    rw [← Bool.not_eq_true]
    intro hl
    have hm := (h.holder u).mp ⟨r, hu, hl⟩
    rcases hw with hw | hw
    · exact absurd (hw.symm.trans hm) (Option.some_ne_none u).symm
    · exact hne (Option.some.inj (hm.symm.trans hw))
  have hmine : r.pc.locked = true → s.oneMegaMutex = some t :=
    fun hl => (h.holder t).mp ⟨r, ht, hl⟩
  rw [advance] at hn
  cases hr : r.pc with
  | lock =>
    simp only [hr] at hn
    split at hn
    · rename_i hfree
      obtain rfl := Option.some.inj hn
      refine h.alone (r.goto .test) (hothers (.inl hfree)) rfl ?_
        (fun _ => h.buffer (clearing_of_free hfree))
        (.inl ⟨rfl, (clearing_of_free hfree).symm⟩) h.allocated
      refine hfine.goto hpc rfl ?_ ?_ ?_
      · rintro ⟨⟩
      · rintro i ⟨⟩
      · rintro ⟨⟩
    · cases hn
  | test =>
    simp only [hr] at hn
    obtain rfl := Option.some.inj hn
    have hm := hmine (by rw [hr]; rfl)
    have hclearing : s.clearing = false := by
      rw [clearing_of_holder hm ht, hr]
      rfl
    cases hbuffer : s.oneMegaBuffer with
    | none =>
      refine h.alone (r.goto .memalign) (hothers (.inr hm)) hm ?_ (fun _ => h.buffer hclearing)
        (.inl ⟨rfl, hclearing.symm⟩) h.allocated
      refine hfine.goto hpc rfl (fun _ => hbuffer) ?_ ?_
      · rintro i ⟨⟩
      · rintro ⟨⟩
    | some m =>
      refine h.alone (r.goto (.unlock 0)) (hothers (.inr hm)) hm ?_ (fun _ => h.buffer hclearing)
        (.inl ⟨rfl, hclearing.symm⟩) h.allocated
      refine hfine.goto hpc rfl ?_ ?_ fun _ => ⟨by rw [hbuffer]; rfl, rfl⟩
      · rintro ⟨⟩
      · rintro i ⟨⟩
  | memalign =>
    simp only [hr] at hn
    have hm := hmine (by rw [hr]; rfl)
    have hclearing : s.clearing = false := by
      rw [clearing_of_holder hm ht, hr]
      rfl
    have hnone := hfine.fresh hr
    split at hn
    · obtain rfl := Option.some.inj hn
      refine h.alone (r.goto (.unlock (-1))) (hothers (.inr hm)) hm ?_
        (fun _ => h.buffer hclearing) (.inl ⟨rfl, hclearing.symm⟩) h.allocated
      refine hfine.goto hpc rfl ?_ ?_ ?_
      · rintro ⟨⟩
      · rintro i ⟨⟩
      · rintro ⟨⟩
    · rename_i m hm'
      obtain rfl := Option.some.inj hn
      refine h.alone (r.goto (.memset 0)) (hothers (.inr hm)) hm ?_ (by rintro ⟨⟩)
        (.inr fun hready => ?_) ?_
      · refine hfine.goto hpc rfl ?_ ?_ ?_
        · rintro ⟨⟩
        · intro i hi
          obtain rfl := FillPc.memset.inj hi
          exact ⟨m, rfl, Nat.zero_le _, fun p hp => absurd hp (Nat.not_lt_zero p)⟩
        · rintro ⟨⟩
      · rw [hnone] at hready
        exact absurd hready.1 Bool.false_ne_true
      · have hlength := h.allocated
        rw [hnone] at hlength
        rw [List.length_append, hlength]
        rfl
  | memset i =>
    simp only [hr] at hn
    obtain rfl := Option.some.inj hn
    have hm := hmine (by rw [hr]; rfl)
    have hclearing : s.clearing = true := by
      rw [clearing_of_holder hm ht, hr]
      rfl
    obtain ⟨m, hbuffer, hi, hcleared⟩ := hfine.cleared i hr
    have hno : ¬(s.oneMegaBuffer.isSome ∧ s.clearing = false) := by
      rw [hclearing]
      exact fun hready => absurd hready.2.symm Bool.false_ne_true
    have hlength : s.allocated.length =
        if (s.oneMegaBuffer.map (clear i (i + outside.bytes))).isSome then 1 else 0 := by
      rw [h.allocated, Option.isSome_map]
    by_cases hend : i + outside.bytes < oneMega
    · rw [if_pos hend]
      refine h.alone (r.goto (.memset (i + outside.bytes))) (hothers (.inr hm)) hm ?_
        (by rintro ⟨⟩) (.inr hno) hlength
      refine hfine.goto hpc rfl ?_ ?_ ?_
      · rintro ⟨⟩
      · intro j hj
        obtain rfl := FillPc.memset.inj hj
        rw [hbuffer]
        exact ⟨_, rfl, Nat.le_of_lt hend, clear_lt hcleared (Nat.le_of_lt hend)⟩
      · rintro ⟨⟩
    · rw [if_neg hend]
      refine h.alone (r.goto (.unlock 0)) (hothers (.inr hm)) hm ?_ (fun _ => ?_) (.inr hno)
        hlength
      · refine hfine.goto hpc rfl ?_ ?_ fun _ => ⟨by rw [hbuffer]; rfl, rfl⟩
        · rintro ⟨⟩
        · rintro j ⟨⟩
      · rw [hbuffer]
        exact cleared_clear hcleared (Nat.not_lt.mp hend)
  | unlock res =>
    simp only [hr] at hn
    obtain rfl := Option.some.inj hn
    have hm := hmine (by rw [hr]; rfl)
    have hclearing : s.clearing = false := by
      rw [clearing_of_holder hm ht, hr]
      rfl
    refine h.alone { r with pc := .lseek, verified := some res } (hothers (.inr hm)) rfl ?_
      (fun _ => h.buffer hclearing) (.inl ⟨rfl, hclearing.symm⟩) h.allocated
    rw [hclearing] at hfine
    exact hfine.returns hr
  | _ =>
    rw [hr] at hpc
    cases hpc

/-- The statements behind `verifyBuffer`. -/
theorem Sound.fills (h : s.Sound) (ht : s.thread t = some r) (hpc : r.pc.verifies = false)
    (hn : s.advance t r outside = some s') : s'.Sound := by
  have hfine := h.calls t r ht
  have hout : ∀ {pc : FillPc}, pc.verifies = false → pc.locked = false := by
    intro pc hv
    rw [FillPc.verifies, Bool.or_eq_false_iff] at hv
    exact hv.2
  have hne : s.oneMegaMutex ≠ some t := by
    intro hm
    obtain ⟨r', hr', hl⟩ := (h.holder t).mpr hm
    rw [ht] at hr'
    rw [← Option.some.inj hr', hout hpc] at hl
    cases hl
  -- one statement of a call that changes no global
  have hput : ∀ r' : Running, r'.call = r.call → r'.verified = r.verified →
      r'.pc.verifies = false → (0 ≤ r.call.size → r'.raced = false → OnlyZeros r'.file) →
      (r'.raced = true → r.raced = true ∨ s.clearing = true) →
      finish s.oneMegaBuffer r.call r'.pc r'.file = finish s.oneMegaBuffer r.call r.pc r.file →
      (s.put t r').Sound := by
    intro r' hcall hver hpc' hzeros hraced hresult
    apply h.put _ (clearing_put hne)
    · exact hfine.behind hcall hver hpc hpc' hzeros hraced hresult
    · rw [hout hpc']
      exact iff_of_false Bool.false_ne_true hne
  -- what a write puts into the file, where nobody is clearing the buffer
  have hwrote : ∀ count, (0 ≤ r.call.size → count ≤ oneMega) → 0 ≤ r.call.size →
      (r.raced || s.clearing) = false →
      OnlyZeros (write r.call.disk s.oneMegaBuffer count r.file).2 := by
    intro count hcount hsize hraced
    rw [Bool.or_eq_false_iff] at hraced
    exact (hfine.onlyZeros hsize hraced.1).write (hcount hsize) (h.buffer hraced.2)
  have hraced : (r.raced || s.clearing) = true → r.raced = true ∨ s.clearing = true :=
    Bool.or_eq_true_iff.mp
  rw [advance] at hn
  cases hr : r.pc with
  | lseek =>
    simp only [hr] at hn
    obtain rfl := Option.some.inj hn
    refine hput _ rfl rfl rfl hfine.onlyZeros .inl ?_
    rw [hr]
    rfl
  | block i =>
    cases i with
    | zero =>
      simp only [hr] at hn
      obtain rfl := Option.some.inj hn
      exact hput _ rfl rfl rfl hfine.onlyZeros .inl (finish_block_zero hr)
    | succ i =>
      simp only [hr] at hn
      obtain rfl := Option.some.inj hn
      refine hput _ rfl rfl ?_ (hwrote oneMega fun _ => le_rfl) hraced
        (finish_block_succ s.clearing hr)
      show FillPc.verifies (if _ then _ else _) = false
      split <;> rfl
  | rest =>
    simp only [hr] at hn
    split at hn
    · rename_i hrest
      obtain rfl := Option.some.inj hn
      refine hput _ rfl rfl ?_ (hwrote _ (rest_le r.call)) hraced
        (finish_rest s.clearing hr hrest)
      show FillPc.verifies (if _ then _ else _) = false
      split <;> rfl
    · rename_i hrest
      obtain rfl := Option.some.inj hn
      exact hput _ rfl rfl rfl hfine.onlyZeros .inl (finish_no_rest hr hrest)
  | lseekBack =>
    simp only [hr] at hn
    obtain rfl := Option.some.inj hn
    refine hput _ rfl rfl rfl hfine.onlyZeros .inl ?_
    rw [hr]
    rfl
  | returned thrown =>
    simp only [hr] at hn
    cases hn
  | _ =>
    rw [hr] at hpc
    cases hpc

theorem Sound.step {l : FillLabel Tid} (h : s.Sound) (hn : next s l = some s') :
    s'.Sound := by
  cases l with
  | call t c =>
    simp only [next] at hn
    split at hn
    · rename_i hover
      obtain rfl := Option.some.inj hn
      -- a thread that calls is not in the lock
      have hne : s.oneMegaMutex ≠ some t := by
        intro hm
        obtain ⟨r, hr, hl⟩ := (h.holder t).mpr hm
        rw [hr, Option.all_some] at hover
        rw [FillPc.not_locked_of_over hover] at hl
        cases hl
      exact h.put (iff_of_false Bool.false_ne_true hne) (clearing_put hne)
        (Fine.start s.oneMegaBuffer s.clearing c)
    · cases hn
  | step t outside =>
    obtain ⟨r, ht, hn⟩ := Option.bind_eq_some_iff.mp hn
    cases hpc : r.pc.verifies with
    | true => exact h.verifies ht hpc hn
    | false => exact h.fills ht hpc hn

end Fills

/-- **Concurrent calls of `fill`.**  Whatever threads call `fill`, and wherever they are
interrupted: the buffer is allocated once at most; a call writes nothing but zeros unless
its own `posix_memalign` failed and it wrote while another thread was clearing the buffer;
and a call whose `verifyBuffer` succeeded comes out as it does for one thread alone, in a
process that has the buffer. -/
theorem concurrent_fills {Tid : Type*} [DecidableEq Tid] {s : Fills Tid}
    (hr : Reaches Fills.next (fun _ _ => True) .initial s) :
    s.allocated.length ≤ 1 ∧
    (∀ t r, s.thread t = some r → 0 ≤ r.call.size →
      (r.raced = false → OnlyZeros r.file) ∧ (r.raced = true → r.verified ≠ some 0)) ∧
    (∀ t r thrown, s.thread t = some r → r.verified = some 0 → r.pc = .returned thrown →
      ∃ process, process.oneMegaBuffer = s.oneMegaBuffer ∧
        ∀ memalign : Memalign r.call.alignment,
          (LibaioContext.fill r.call.disk memalign r.call.position r.call.size process).thrown =
              thrown ∧
            (LibaioContext.fill r.call.disk memalign r.call.position r.call.size process).file =
              r.file) := by
  have h : s.Sound := hr.invariant .initial fun _ _ _ h _ hn => h.step hn
  refine ⟨?_, fun t r ht hsize => ?_, fun t r thrown ht hv hpc => ?_⟩
  · rw [h.allocated]
    split
    · exact le_rfl
    · exact Nat.zero_le 1
  · exact ⟨(h.calls t r ht).onlyZeros hsize, (h.calls t r ht).raced⟩
  · have hfine := h.calls t r ht
    obtain ⟨hsome, hclearing⟩ := hfine.ready (.inr hv)
    obtain ⟨m, hm⟩ := Option.isSome_iff_exists.mp hsome
    refine ⟨⟨s.oneMegaBuffer, h.buffer hclearing⟩, rfl, fun memalign => ?_⟩
    have hverified : verified memalign ⟨s.oneMegaBuffer, h.buffer hclearing⟩ =
        s.oneMegaBuffer := by
      rw [verified, verified_of_buffer memalign (m := m) hm]
    have hresult := (finish_lseek memalign hverified).trans (hfine.result hv).symm
    rw [hpc] at hresult
    exact ⟨congrArg Prod.fst hresult, congrArg Prod.snd hresult⟩

/-! ### Small runs -/

/-- A disk that writes everything, and one block of memory with ones in it. -/
def wholeMega : Call where
  disk := .upTo (2 ^ 20)
  position := 0
  alignment := 4096
  size := 4096

def ones : Memory := ⟨4096, fun _ => 1⟩

/-- A call that allocates the buffer and clears it in two pieces, and another one that
waits for it. -/
def waited : List (FillLabel Bool) :=
  [.call true wholeMega, .call false wholeMega, .step true {}, .step true {},
    .step true { memalign := some ones }, .step true { bytes := 1000 },
    .step true { bytes := 2 ^ 20 }, .step true {}, .step false {}, .step false {},
    .step false {}, .step false {}, .step false {}, .step false {}, .step false {}]

/-- A call whose `posix_memalign` fails, and that writes while another one has allocated the
buffer and not yet cleared it. -/
def racing : List (FillLabel Bool) :=
  [.call true wholeMega, .call false wholeMega, .step true {}, .step true {}, .step true {},
    .step true {}, .step false {}, .step false {}, .step false { memalign := some ones },
    .step true {}, .step true {}, .step true {}, .step true {}]

theorem concurrent_fills_waited : ∃ (s : Fills Bool) (r : Running),
    Reaches Fills.next (fun _ _ => True) .initial s ∧ s.thread false = some r ∧
      r.pc = .returned none ∧ r.verified = some 0 ∧ r.file.total = 4096 ∧
      OnlyZeros r.file := by
  obtain ⟨s, hr, r, ht, hpc, hv, htotal, hraced, hsize⟩ := exists_of_exec Fills.next
    (fun _ _ => True) .initial waited
    (fun s : Fills Bool => ∃ r ∈ s.thread false, r.pc = .returned none ∧
      r.verified = some 0 ∧ r.file.total = 4096 ∧ r.raced = false ∧ 0 ≤ r.call.size)
    (by decide)
  exact ⟨s, r, hr, ht, hpc, hv, htotal, ((concurrent_fills hr).2.1 false r ht hsize).1 hraced⟩

/-- The defect that is left: what was in the memory before is written into the file, and no
exception is thrown. -/
theorem garbage_written : ∃ (s : Fills Bool) (r : Running),
    Reaches Fills.next (fun _ _ => True) .initial s ∧ s.thread true = some r ∧
      r.pc = .returned none ∧ r.verified = some (-1) ∧ r.file.written 0 = some 1 := by
  obtain ⟨s, hr, r, ht, hpc, hv, hwritten⟩ := exists_of_exec Fills.next
    (fun _ _ => True) .initial racing
    (fun s : Fills Bool => ∃ r ∈ s.thread true, r.pc = .returned none ∧
      r.verified = some (-1) ∧ r.file.written 0 = some 1) (by decide)
  exact ⟨s, r, hr, ht, hpc, hv, hwritten⟩

end Fill

end ArtemisNative
