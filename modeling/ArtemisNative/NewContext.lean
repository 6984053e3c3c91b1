/-
ArtemisNative/NewContext.lean

The construction of a context.

`newContext` acquires one resource after the other and has, for each that it may not get, a
cleanup list of its own.  The model keeps the calls it makes out of the library, in their
order.  Memory that `malloc` has returned is not written: a pointer in it is wild, and the
`ioContext` in it is `none` until `io_queue_init` writes it.

`AllOrNothing` is what a constructor should guarantee.  The lists for the control block, the
kernel context, the array, the iocbs and the first mutex are right.  Behind the first mutex
none of them destroys a mutex; and when `io_queue_init` rejects the size without having
written the context, `io_queue_release` is called on whatever was there
(`all_or_nothing_iff`).
-/
import Mathlib.Data.List.Range
import Mathlib.Data.List.Nodup
import Mathlib.Data.List.Perm.Basic

namespace ArtemisNative

namespace NewContext

/-! ### Resources and calls -/

inductive Resource
  | control
  /-- the kernel context, by its handle -/
  | kernel (handle : ℕ)
  | array
  | iocb (i : ℕ)
  | iocbLock
  | pollLock
  | events
  deriving DecidableEq, Repr

/-- What a pointer variable holds: whatever was in the memory, `NULL`, or a resource. -/
inductive Pointer
  | wild
  | null
  | to (r : Resource)
  deriving DecidableEq, Repr

/-- Calls out of the library. -/
inductive NativeCall
  /-- `malloc`, `io_queue_init` and `pthread_mutex_init` that have succeeded -/
  | malloc (r : Resource)
  | ioQueueInit (handle : ℕ)
  | mutexInit (r : Resource)
  /-- the context that is released, `none` if `io_queue_init` has not written it -/
  | ioQueueRelease (ctx : Option ℕ)
  | free (p : Pointer)
  deriving DecidableEq, Repr

def NativeCall.acquires : NativeCall → List Resource
  | .malloc r | .mutexInit r => [r]
  | .ioQueueInit handle => [.kernel handle]
  | .ioQueueRelease _ | .free _ => []

/-- The zero context stands for none: releasing it fails and does nothing. -/
def NativeCall.releases : NativeCall → List Resource
  | .free (.to r) => [r]
  | .ioQueueRelease (some handle) => if handle = 0 then [] else [.kernel handle]
  | _ => []

/-- The call is about something that nobody has written. -/
def NativeCall.stray : NativeCall → Bool
  | .free .wild | .ioQueueRelease none => true
  | _ => false

def acquired (calls : List NativeCall) : List Resource := calls.flatMap NativeCall.acquires

def released (calls : List NativeCall) : List Resource := calls.flatMap NativeCall.releases

/-! ### The environment -/

/-- `io_queue_init` of libaio, from the size and what the context holds to its return value
and what the context holds then. -/
structure Libaio where
  ioQueueInit : ℤ → Option ℕ → ℤ × Option ℕ
  /-- it rejects a size that is not positive, and does not write the context -/
  rejects : ∀ n ctx, n ≤ 0 → (ioQueueInit n ctx).1 ≠ 0 ∧ (ioQueueInit n ctx).2 = ctx
  /-- for a positive size it first zeroes the context -/
  zeroes : ∀ n ctx, 0 < n → (ioQueueInit n ctx).1 ≠ 0 → (ioQueueInit n ctx).2 = some 0
  succeeds : ∀ n ctx, 0 < n → (ioQueueInit n ctx).1 = 0 →
    ∃ handle, handle ≠ 0 ∧ (ioQueueInit n ctx).2 = some handle

/-- Which allocations succeed, and what `pthread_mutex_init` returns; `raw` is what memory
holds before it is written. -/
structure Environment where
  control : Bool := true
  array : Bool := true
  iocb : ℕ → Bool := fun _ => true
  iocbLock : ℤ := 0
  pollLock : ℤ := 0
  events : Bool := true
  raw : ℤ := 0

/-! ### newContext -/

/-- `struct io_control`, as far as `newContext` writes it. -/
structure Control where
  ioContext : Option ℕ
  iocbArray : Pointer
  iocb : ℕ → Pointer
  queueSize : ℤ
  events : Pointer
  iocbPut : ℤ
  iocbGet : ℤ
  used : ℤ

/-- The control block as `malloc` returns it. -/
def Control.raw (env : Environment) : Control where
  ioContext := none
  iocbArray := .wild
  iocb := fun _ => .wild
  queueSize := env.raw
  events := .wild
  iocbPut := env.raw
  iocbGet := env.raw
  used := env.raw

inductive Thrown
  | outOfMemoryError
  /-- `RuntimeException`, with the message in front of `strerror(errno)` -/
  | runtimeException (message : String) (errno : ℤ)
  deriving DecidableEq, Repr

/-- `throwRuntimeExceptionErrorNo`; `exceptionMessage` makes a negative error positive. -/
def throwRuntimeExceptionErrorNo (message : String) (errorNumber : ℤ) : Thrown :=
  .runtimeException message (if errorNumber < 0 then errorNumber * -1 else errorNumber)

/-- What a call of `newContext` comes to: an exception or a context, and the calls it has
made. -/
structure Return where
  exception : Option Thrown
  context : Option Control
  calls : List NativeCall

/-- The calls that free the members of the pool. -/
def iocbDestroyMembers (theControl : Control) (upperBound : ℤ) : List NativeCall :=
  (List.range upperBound.toNat).map fun i => .free (theControl.iocb i)

def iocbDestroyBounded (theControl : Control) (upperBound : ℤ) : List NativeCall :=
  iocbDestroyMembers theControl upperBound ++ [.free theControl.iocbArray]

def iocbDestroy (theControl : Control) : List NativeCall :=
  iocbDestroyBounded theControl theControl.queueSize

/-- The loop that allocates the iocbs from `i` on, `n` of them; with the index at which
`malloc` has failed. -/
def allocate (env : Environment) : (n i : ℕ) → Control → List NativeCall →
    Control × List NativeCall × Option ℕ
  | 0, _, c, calls => (c, calls, none)
  | n + 1, i, c, calls =>
    if env.iocb i then
      allocate env n (i + 1) { c with iocb := Function.update c.iocb i (.to (.iocb i)) }
        (calls ++ [.malloc (.iocb i)])
    else
      ({ c with iocb := Function.update c.iocb i .null }, calls, some i)

def newContext (lib : Libaio) (env : Environment) (queueSize : ℤ) : Return :=
  if !env.control then
    ⟨some .outOfMemoryError, none, []⟩
  else
    let c := Control.raw env
    let (res, ctx) := lib.ioQueueInit queueSize c.ioContext
    let c := { c with ioContext := ctx }
    if res ≠ 0 then
      ⟨some (throwRuntimeExceptionErrorNo "Cannot initialize queue:" res), none,
        [.malloc .control, .ioQueueRelease c.ioContext, .free (.to .control)]⟩
    else
      let calls := [.malloc .control, .ioQueueInit (ctx.getD 0)]
      if !env.array then
        ⟨some .outOfMemoryError, none,
          calls ++ [.ioQueueRelease c.ioContext, .free (.to .control)]⟩
      else
        let c := { c with iocbArray := .to .array }
        let calls := calls ++ [.malloc .array]
        let (c, calls, failed) := allocate env queueSize.toNat 0 c calls
        match failed with
        | some i =>
          ⟨some .outOfMemoryError, none, calls ++ iocbDestroyBounded c i ++
            [.ioQueueRelease c.ioContext, .free (.to .control)]⟩
        | none =>
          let c := { c with queueSize := queueSize }
          if env.iocbLock ≠ 0 then
            ⟨some (throwRuntimeExceptionErrorNo "Can't initialize mutext:" env.iocbLock), none,
              calls ++ iocbDestroy c ++ [.ioQueueRelease c.ioContext, .free (.to .control)]⟩
          else
            let calls := calls ++ [.mutexInit .iocbLock]
            if env.pollLock ≠ 0 then
              ⟨some (throwRuntimeExceptionErrorNo "Can't initialize mutext:" env.pollLock), none,
                calls ++ iocbDestroy c ++ [.ioQueueRelease c.ioContext, .free (.to .control)]⟩
            else
              let calls := calls ++ [.mutexInit .pollLock]
              if !env.events then
                ⟨some (throwRuntimeExceptionErrorNo
                    "Can't initialize mutext (not enough memory for the events member): "
                    env.pollLock), none,
                  calls ++ iocbDestroy c ++ [.ioQueueRelease c.ioContext, .free (.to .control)]⟩
              else
                ⟨none, some { c with
                  events := .to .events, iocbPut := 0, iocbGet := 0, used := 0 },
                  calls ++ [.malloc .events]⟩

/-! ### What a constructor should guarantee -/

/-- Everything acquired has been released, once and not before; and nothing else. -/
structure Undone (calls : List NativeCall) : Prop where
  once : (acquired calls).Nodup
  perm : (released calls).Perm (acquired calls)
  order : ∀ before, before <+: calls → released before ⊆ acquired before
  known : ∀ call ∈ calls, call.stray = false

/-- Either a context is returned and nothing was released, or an exception is pending and
everything was undone. -/
def AllOrNothing (r : Return) : Prop :=
  (∃ c, r.context = some c ∧ r.exception = none ∧ (acquired r.calls).Nodup ∧
    released r.calls = [] ∧ ∀ call ∈ r.calls, call.stray = false) ∨
  (r.context = none ∧ r.exception ≠ none ∧ Undone r.calls)

/-! ### The loop -/

variable {lib : Libaio} {env : Environment} {queueSize : ℤ} {n i k : ℕ}
variable {c : Control} {calls acquiring releasing : List NativeCall}

/-- The calls that allocate the iocbs from `i` on, `n` of them. -/
def mallocs (i n : ℕ) : List NativeCall := (List.range' i n).map fun j => .malloc (.iocb j)

theorem mallocs_succ (i n : ℕ) : mallocs i (n + 1) = .malloc (.iocb i) :: mallocs (i + 1) n := by
  rw [mallocs, List.range'_succ, List.map_cons, mallocs]

/-- The loop goes up to the first iocb that it does not get. -/
theorem allocate_spec (env : Environment) (n i : ℕ) (c : Control) (calls : List NativeCall) :
    ∃ k c', allocate env n i c calls =
        (c', calls ++ mallocs i k, if k = n then none else some (i + k)) ∧
      k ≤ n ∧ (k = n ↔ ∀ j, i ≤ j → j < i + n → env.iocb j = true) ∧
      (∀ j, j < i → c'.iocb j = c.iocb j) ∧
      (∀ j, i ≤ j → j < i + k → c'.iocb j = .to (.iocb j)) ∧
      c'.ioContext = c.ioContext ∧ c'.iocbArray = c.iocbArray := by
  induction n generalizing i c calls with
  | zero =>
    refine ⟨0, c, ?_, le_rfl, ?_, fun _ _ => rfl, ?_, rfl, rfl⟩
    · simp [allocate, mallocs]
    · exact iff_of_true rfl fun j _ _ => by omega
    · intro j _ _
      omega
  | succ n ih =>
    by_cases hi : env.iocb i = true
    · obtain ⟨k, c', heq, hk, hall, hbelow, hfrom, hctx, harr⟩ := ih (i + 1)
        { c with iocb := Function.update c.iocb i (.to (.iocb i)) }
        (calls ++ [.malloc (.iocb i)])
      refine ⟨k + 1, c', ?_, by omega, ?_, fun j hj => ?_, fun j hj hjk => ?_, hctx, harr⟩
      · rw [allocate, if_pos hi, heq, mallocs_succ, List.append_assoc, List.singleton_append]
        by_cases hkn : k = n
        · rw [if_pos hkn, if_pos (by omega)]
        · rw [if_neg hkn, if_neg (by omega), Nat.add_right_comm, Nat.add_assoc]
      · rw [Nat.add_right_cancel_iff, hall]
        refine ⟨fun h j hj hjn => ?_, fun h j hj hjn => ?_⟩
        · rcases Nat.eq_or_lt_of_le hj with rfl | hj
          · exact hi
          · exact h j hj (by omega)
        · exact h j (by omega) (by omega)
      · rw [hbelow j (by omega)]
        exact Function.update_of_ne (by omega) _ _
      · rcases Nat.eq_or_lt_of_le hj with rfl | hj
        · rw [hbelow i (by omega)]
          exact Function.update_self _ _ _
        · exact hfrom j hj (by omega)
    · refine ⟨0, { c with iocb := Function.update c.iocb i .null }, ?_, Nat.zero_le _, ?_,
        fun j hj => ?_, ?_, rfl, rfl⟩
      · rw [allocate, if_neg hi]
        simp [mallocs]
      · refine iff_of_false (by omega) fun h => hi (h i le_rfl (by omega))
      · exact Function.update_of_ne (by omega) _ _
      · intro j _ _
        omega

/-! ### Cleanup lists -/

@[simp]
theorem acquired_append (calls more : List NativeCall) :
    acquired (calls ++ more) = acquired calls ++ acquired more := List.flatMap_append

@[simp]
theorem released_append (calls more : List NativeCall) :
    released (calls ++ more) = released calls ++ released more := List.flatMap_append

theorem acquired_mallocs (i n : ℕ) :
    acquired (mallocs i n) = (List.range' i n).map .iocb := by
  induction n generalizing i with
  | zero => rfl
  | succ n ih =>
    rw [mallocs_succ, List.range'_succ, List.map_cons, ← ih (i + 1)]
    rfl

theorem released_mallocs (i n : ℕ) : released (mallocs i n) = [] := by
  induction n generalizing i with
  | zero => rfl
  | succ n ih =>
    rw [mallocs_succ]
    exact ih (i + 1)

/-- Freeing the first `n` members, which are all allocated. -/
theorem released_iocbDestroyMembers (hc : ∀ j < n, c.iocb j = .to (.iocb j)) :
    released (iocbDestroyMembers c n) = (List.range n).map .iocb := by
  rw [released, iocbDestroyMembers, Int.toNat_natCast, List.flatMap_map, List.map_eq_flatMap]
  refine List.flatMap_congr fun j hj => ?_
  show (NativeCall.free (c.iocb j)).releases = [.iocb j]
  rw [hc j (List.mem_range.mp hj)]
  rfl

theorem acquired_iocbDestroyMembers (c : Control) (n : ℤ) :
    acquired (iocbDestroyMembers c n) = [] := by
  rw [acquired, iocbDestroyMembers, List.flatMap_map]
  exact List.flatMap_eq_nil_iff.mpr fun _ _ => rfl

/-- Calls that only acquire, followed by calls that give back what these have acquired. -/
theorem Undone.of_append (acquiring releasing : List NativeCall)
    (hA : released acquiring = []) (hR : acquired releasing = [])
    (hnodup : (acquired acquiring).Nodup)
    (hperm : (released releasing).Perm (acquired acquiring))
    (hknown : ∀ call ∈ acquiring ++ releasing, call.stray = false) :
    Undone (acquiring ++ releasing) where
  once := by rwa [acquired_append, hR, List.append_nil]
  perm := by rwa [acquired_append, released_append, hA, hR, List.append_nil, List.nil_append]
  known := hknown
  order := by
    intro before hbefore
    rcases List.prefix_or_prefix_of_prefix hbefore (List.prefix_append acquiring releasing) with
      ⟨rest, rfl⟩ | ⟨done, rfl⟩
    · have hnone : released before = [] := by
        rw [released_append] at hA
        exact (List.append_eq_nil_iff.mp hA).1
      rw [hnone]
      exact List.nil_subset _
    · obtain ⟨rest, hrest⟩ := (List.prefix_append_right_inj acquiring).mp hbefore
      intro r hr
      rw [released_append, hA, List.nil_append] at hr
      rw [acquired_append]
      refine List.mem_append_left _ (hperm.subset ?_)
      rw [← hrest, released_append]
      exact List.mem_append_left _ hr

/-- A mutex that was initialised and not destroyed. -/
theorem not_undone {r : Resource} (hr : r ∈ acquired calls) (hnot : r ∉ released calls) :
    ¬Undone calls :=
  fun h => hnot (h.perm.symm.subset hr)

/-! ### Where the cleanup is right -/

/-- The calls up to the loop. -/
def setup (handle : ℕ) : List NativeCall :=
  [.malloc .control, .ioQueueInit handle] ++ [.malloc .array]

/-- What each path from the loop on does to give up, with `n` iocbs allocated. -/
def giveUp (c : Control) (n : ℕ) : List NativeCall :=
  iocbDestroyBounded c n ++ [.ioQueueRelease c.ioContext, .free (.to .control)]

theorem acquired_giveUp (c : Control) (n : ℕ) : acquired (giveUp c n) = [] := by
  rw [giveUp, iocbDestroyBounded, acquired_append, acquired_append,
    acquired_iocbDestroyMembers]
  rfl

variable {handle : ℕ}

theorem released_giveUp (hc : ∀ j < n, c.iocb j = .to (.iocb j)) (harr : c.iocbArray = .to .array)
    (hctx : c.ioContext = some handle) (hne : handle ≠ 0) :
    released (giveUp c n) =
      (List.range n).map .iocb ++ [.array] ++ [.kernel handle, .control] := by
  rw [giveUp, iocbDestroyBounded, released_append, released_append,
    released_iocbDestroyMembers hc, harr, hctx]
  simp [released, NativeCall.releases, hne]

theorem acquired_setup (handle n : ℕ) :
    acquired (setup handle ++ mallocs 0 n) =
      [.control, .kernel handle, .array] ++ (List.range n).map .iocb := by
  rw [acquired_append, acquired_mallocs, ← List.range_eq_range']
  rfl

theorem nodup_acquired_setup (handle n : ℕ) :
    (acquired (setup handle ++ mallocs 0 n)).Nodup := by
  rw [acquired_setup]
  refine List.Nodup.append (by simp) (List.nodup_range.map fun _ _ h => ?_) fun r hr hr' => ?_
  · exact Resource.iocb.inj h
  · obtain ⟨j, -, rfl⟩ := List.mem_map.mp hr'
    simp at hr

theorem known_giveUp (hc : ∀ j < n, c.iocb j = .to (.iocb j)) (harr : c.iocbArray = .to .array)
    (hctx : c.ioContext = some handle) : ∀ call ∈ giveUp c n, call.stray = false := by
  intro call hcall
  simp only [giveUp, iocbDestroyBounded, iocbDestroyMembers, harr, hctx, List.mem_append,
    List.mem_map, List.mem_range, List.mem_cons, List.not_mem_nil, or_false, Int.toNat_natCast]
    at hcall
  obtain (⟨j, hj, rfl⟩ | rfl) | rfl | rfl := hcall
  · rw [hc j hj]
    rfl
  all_goals rfl

theorem known_setup (handle n : ℕ) :
    ∀ call ∈ setup handle ++ mallocs 0 n, call.stray = false := by
  intro call hcall
  simp only [setup, mallocs, List.mem_append, List.mem_map, List.mem_cons, List.not_mem_nil,
    or_false] at hcall
  obtain ((rfl | rfl) | rfl) | ⟨j, -, rfl⟩ := hcall
  all_goals rfl

/-- The paths that give up before a mutex is initialised. -/
theorem undone_setup (hc : ∀ j < n, c.iocb j = .to (.iocb j)) (harr : c.iocbArray = .to .array)
    (hctx : c.ioContext = some handle) (hne : handle ≠ 0) :
    Undone (setup handle ++ mallocs 0 n ++ giveUp c n) := by
  apply Undone.of_append
  · rw [released_append, released_mallocs]
    rfl
  · exact acquired_giveUp c n
  · exact nodup_acquired_setup handle n
  · rw [released_giveUp hc harr hctx hne, acquired_setup, List.append_assoc]
    refine List.perm_append_comm.trans (List.Perm.append_right _ ?_)
    show [Resource.array, .kernel handle, .control].Perm [.control, .kernel handle, .array]
    exact List.reverse_perm [Resource.control, .kernel handle, .array]
  · intro call hcall
    rcases List.mem_append.mp hcall with hcall | hcall
    · exact known_setup handle n call hcall
    · exact known_giveUp hc harr hctx call hcall

/-- The paths that give up with a mutex initialised. -/
theorem not_undone_locks (locks : List NativeCall) {r : Resource} (hr : r ∈ acquired locks)
    (hlocks : released locks = [])
    (hc : ∀ j < n, c.iocb j = .to (.iocb j)) (harr : c.iocbArray = .to .array)
    (hctx : c.ioContext = some handle) (hne : handle ≠ 0) (hlock : r = .iocbLock) :
    ¬Undone (setup handle ++ mallocs 0 n ++ locks ++ giveUp c n) := by
  refine not_undone (r := r) ?_ ?_
  · simp only [acquired_append, List.mem_append]
    exact .inl (.inr hr)
  · rw [released_append, released_append, hlocks, released_append, released_mallocs,
      released_giveUp hc harr hctx hne, hlock]
    simp [setup, released, NativeCall.releases]

/-! ### The paths of `newContext` -/

theorem newContext_of_control (lib : Libaio) (queueSize : ℤ) (hcontrol : env.control = false) :
    newContext lib env queueSize = ⟨some .outOfMemoryError, none, []⟩ := by
  simp [newContext, hcontrol]

theorem newContext_of_init (hcontrol : env.control = true)
    (hres : (lib.ioQueueInit queueSize none).1 ≠ 0) :
    newContext lib env queueSize =
      ⟨some (throwRuntimeExceptionErrorNo "Cannot initialize queue:"
          (lib.ioQueueInit queueSize none).1), none,
        [.malloc .control, .ioQueueRelease (lib.ioQueueInit queueSize none).2,
          .free (.to .control)]⟩ := by
  simp [newContext, hcontrol, Control.raw, hres]

theorem newContext_of_array (hcontrol : env.control = true)
    (hres : (lib.ioQueueInit queueSize none).1 = 0)
    (hctx : (lib.ioQueueInit queueSize none).2 = some handle) (harray : env.array = false) :
    newContext lib env queueSize =
      ⟨some .outOfMemoryError, none, [.malloc .control, .ioQueueInit handle] ++
        [.ioQueueRelease (some handle), .free (.to .control)]⟩ := by
  simp [newContext, hcontrol, Control.raw, hres, hctx, harray]

/-- From the loop on, with the `k` iocbs that it has allocated. -/
theorem newContext_of_loop (hcontrol : env.control = true)
    (hres : (lib.ioQueueInit queueSize none).1 = 0)
    (hctx : (lib.ioQueueInit queueSize none).2 = some handle) (harray : env.array = true)
    (hpos : 0 < queueSize) :
    ∃ k c, (∀ j < k, c.iocb j = .to (.iocb j)) ∧ c.iocbArray = .to .array ∧
      c.ioContext = some handle ∧
      (k = queueSize.toNat ↔ ∀ i, i < queueSize.toNat → env.iocb i = true) ∧
      (k ≠ queueSize.toNat → newContext lib env queueSize =
        ⟨some .outOfMemoryError, none, setup handle ++ mallocs 0 k ++ giveUp c k⟩) ∧
      (k = queueSize.toNat → newContext lib env queueSize =
        if env.iocbLock ≠ 0 then
          ⟨some (throwRuntimeExceptionErrorNo "Can't initialize mutext:" env.iocbLock), none,
            setup handle ++ mallocs 0 k ++ giveUp c k⟩
        else if env.pollLock ≠ 0 then
          ⟨some (throwRuntimeExceptionErrorNo "Can't initialize mutext:" env.pollLock), none,
            setup handle ++ mallocs 0 k ++ [.mutexInit .iocbLock] ++ giveUp c k⟩
        else if !env.events then
          ⟨some (throwRuntimeExceptionErrorNo
              "Can't initialize mutext (not enough memory for the events member): "
              env.pollLock), none,
            setup handle ++ mallocs 0 k ++ [.mutexInit .iocbLock, .mutexInit .pollLock] ++
              giveUp c k⟩
        else
          ⟨none, some { c with
              queueSize := queueSize, events := .to .events, iocbPut := 0, iocbGet := 0,
              used := 0 },
            setup handle ++ mallocs 0 k ++ [.mutexInit .iocbLock, .mutexInit .pollLock] ++
              [.malloc .events]⟩) := by
  obtain ⟨k, c, hloop, -, hall, -, hslots, hioContext, hiocbArray⟩ :=
    allocate_spec env queueSize.toNat 0
      { Control.raw env with ioContext := some handle, iocbArray := .to .array }
      (setup handle)
  have hcast : ((queueSize.toNat : ℕ) : ℤ) = queueSize := Int.toNat_of_nonneg (Int.le_of_lt hpos)
  refine ⟨k, c, fun j hj => hslots j (Nat.zero_le j) (by omega), hiocbArray, hioContext, ?_,
    fun hk => ?_, fun hk => ?_⟩
  · rw [hall]
    exact ⟨fun h i hi => h i (Nat.zero_le i) (by omega), fun h i _ hi => h i (by omega)⟩
  · rw [if_neg hk, setup] at hloop
    simp only [Control.raw, List.cons_append, List.nil_append] at hloop
    simp [newContext, hcontrol, Control.raw, hres, hctx, harray, hloop, setup, giveUp]
  · rw [if_pos hk, setup] at hloop
    simp only [Control.raw, List.cons_append, List.nil_append] at hloop
    simp [newContext, hcontrol, Control.raw, hres, hctx, harray, hloop, setup, giveUp,
      iocbDestroy, iocbDestroyBounded, iocbDestroyMembers, hk, hcast]

/-! ### The main result -/

/-- The calls on which the cleanup is right: the control block cannot be had; or the size is
positive, and nothing fails behind the first mutex. -/
def CleansUp (lib : Libaio) (env : Environment) (queueSize : ℤ) : Prop :=
  env.control = true → 0 < queueSize ∧
    ((lib.ioQueueInit queueSize none).1 = 0 → env.array = true →
      (∀ i, i < queueSize.toNat → env.iocb i = true) → env.iocbLock = 0 →
        env.pollLock = 0 ∧ env.events = true)

theorem allOrNothing_of_thrown (e : Thrown) (calls : List NativeCall) :
    AllOrNothing ⟨some e, none, calls⟩ ↔ Undone calls := by
  constructor
  · rintro (⟨c, hc, -⟩ | ⟨-, -, h⟩)
    · simp at hc
    · exact h
  · intro h
    exact .inr ⟨rfl, by simp, h⟩

theorem not_undone_of_stray (call : NativeCall) (hcall : call ∈ calls)
    (hstray : call.stray = true) : ¬Undone calls := by
  intro h
  rw [h.known call hcall] at hstray
  exact Bool.false_ne_true hstray

/-- A size that is rejected: the context that is released is not one. -/
theorem not_allOrNothing_of_size (hcontrol : env.control = true) (hsize : queueSize ≤ 0) :
    ¬AllOrNothing (newContext lib env queueSize) := by
  obtain ⟨hres, hctx⟩ := lib.rejects queueSize none hsize
  rw [newContext_of_init hcontrol hres, allOrNothing_of_thrown, hctx]
  exact not_undone_of_stray (.ioQueueRelease none) (by simp) rfl

/-- A positive size that is rejected: the context has been zeroed. -/
theorem allOrNothing_of_init (hcontrol : env.control = true) (hpos : 0 < queueSize)
    (hres : (lib.ioQueueInit queueSize none).1 ≠ 0) :
    AllOrNothing (newContext lib env queueSize) := by
  rw [newContext_of_init hcontrol hres, allOrNothing_of_thrown,
    lib.zeroes queueSize none hpos hres]
  apply Undone.of_append [.malloc .control] [.ioQueueRelease (some 0), .free (.to .control)]
  · rfl
  · rfl
  · exact List.nodup_singleton _
  · exact List.Perm.refl _
  · simp [NativeCall.stray]

theorem allOrNothing_of_array (hcontrol : env.control = true)
    (hres : (lib.ioQueueInit queueSize none).1 = 0)
    (hctx : (lib.ioQueueInit queueSize none).2 = some handle) (hne : handle ≠ 0)
    (harray : env.array = false) : AllOrNothing (newContext lib env queueSize) := by
  rw [newContext_of_array hcontrol hres hctx harray, allOrNothing_of_thrown]
  apply Undone.of_append
  · rfl
  · rfl
  · simp [acquired, NativeCall.acquires]
  · simpa [acquired, released, NativeCall.acquires, NativeCall.releases, hne] using
      List.Perm.swap Resource.control (.kernel handle) []
  · simp [NativeCall.stray]

/-- Nothing fails. -/
theorem allOrNothing_of_returned (c : Control) (handle k : ℕ) :
    AllOrNothing ⟨none, some c, setup handle ++ mallocs 0 k ++
      [.mutexInit .iocbLock, .mutexInit .pollLock] ++ [.malloc .events]⟩ := by
  refine .inl ⟨c, rfl, rfl, ?_, ?_, ?_⟩
  · show (acquired (setup handle ++ mallocs 0 k ++ [.mutexInit .iocbLock, .mutexInit .pollLock]
      ++ [.malloc .events])).Nodup
    rw [List.append_assoc, acquired_append]
    refine List.Nodup.append (nodup_acquired_setup handle k)
      (by simp [acquired, NativeCall.acquires]) fun r hr hr' => ?_
    simp only [acquired_setup, List.mem_append, List.mem_cons, List.mem_map,
      List.not_mem_nil, or_false] at hr
    simp only [acquired, NativeCall.acquires, List.cons_append, List.nil_append,
      List.flatMap_cons, List.flatMap_nil, List.mem_cons, List.not_mem_nil, or_false] at hr'
    rcases hr' with rfl | rfl | rfl <;> simp at hr
  · simp only [released_append, released_mallocs]
    rfl
  · intro call hcall
    rw [List.append_assoc] at hcall
    rcases List.mem_append.mp hcall with hcall | hcall
    · exact known_setup handle k call hcall
    · simp only [List.cons_append, List.nil_append, List.mem_cons, List.not_mem_nil, or_false]
        at hcall
      obtain rfl | rfl | rfl := hcall
      all_goals rfl

/-- From the loop on: a mutex that is initialised must not be followed by a failure. -/
theorem allOrNothing_of_loop (hcontrol : env.control = true) (hpos : 0 < queueSize)
    (hres : (lib.ioQueueInit queueSize none).1 = 0) (harray : env.array = true) :
    AllOrNothing (newContext lib env queueSize) ↔
      ((∀ i, i < queueSize.toNat → env.iocb i = true) → env.iocbLock = 0 →
        env.pollLock = 0 ∧ env.events = true) := by
  obtain ⟨handle, hne, hctx⟩ := lib.succeeds queueSize none hpos hres
  obtain ⟨k, c, hslots, harr, hioContext, hall, hfail, hdone⟩ :=
    newContext_of_loop hcontrol hres hctx harray hpos
  by_cases hk : k = queueSize.toNat
  · have hiocb := hall.mp hk
    rw [hdone hk]
    split_ifs with hiocbLock hpollLock hevents
    · rw [allOrNothing_of_thrown]
      exact iff_of_true (undone_setup hslots harr hioContext hne) fun _ h => absurd h hiocbLock
    · rw [allOrNothing_of_thrown]
      refine iff_of_false ?_ fun h => hpollLock (h hiocb (not_not.mp hiocbLock)).1
      exact not_undone_locks [.mutexInit .iocbLock] (.head _) rfl hslots harr hioContext hne rfl
    · rw [allOrNothing_of_thrown]
      refine iff_of_false ?_ fun h => ?_
      · exact not_undone_locks [.mutexInit .iocbLock, .mutexInit .pollLock] (.head _) rfl hslots
          harr hioContext hne rfl
      · rw [(h hiocb (not_not.mp hiocbLock)).2] at hevents
        exact Bool.false_ne_true hevents
    · refine iff_of_true (allOrNothing_of_returned _ handle k) fun _ _ => ?_
      exact ⟨not_not.mp hpollLock, by simpa using hevents⟩
  · rw [hfail hk, allOrNothing_of_thrown]
    exact iff_of_true (undone_setup hslots harr hioContext hne) fun h => absurd (hall.mpr h) hk

/-- **`newContext` is all or nothing exactly where `CleansUp` holds.** -/
theorem all_or_nothing_iff (lib : Libaio) (env : Environment) (queueSize : ℤ) :
    AllOrNothing (newContext lib env queueSize) ↔ CleansUp lib env queueSize := by
  unfold CleansUp
  by_cases hcontrol : env.control = true
  · by_cases hpos : 0 < queueSize
    · by_cases hres : (lib.ioQueueInit queueSize none).1 = 0
      · obtain ⟨handle, hne, hctx⟩ := lib.succeeds queueSize none hpos hres
        by_cases harray : env.array = true
        · rw [allOrNothing_of_loop hcontrol hpos hres harray]
          exact ⟨fun h _ => ⟨hpos, fun _ _ => h⟩, fun h => (h hcontrol).2 hres harray⟩
        · refine iff_of_true ?_ fun _ => ⟨hpos, fun _ h => absurd h harray⟩
          exact allOrNothing_of_array hcontrol hres hctx hne (Bool.eq_false_iff.mpr harray)
      · refine iff_of_true (allOrNothing_of_init hcontrol hpos hres) fun _ => ?_
        exact ⟨hpos, fun h => absurd h hres⟩
    · refine iff_of_false (not_allOrNothing_of_size hcontrol (Int.not_lt.mp hpos)) fun h => ?_
      exact hpos (h hcontrol).1
  · refine iff_of_true ?_ fun h => absurd h hcontrol
    rw [newContext_of_control lib queueSize (Bool.eq_false_iff.mpr hcontrol),
      allOrNothing_of_thrown]
    exact Undone.of_append [] [] rfl rfl List.nodup_nil
      (List.Perm.refl _) (by simp)

/-- libaio with a kernel that admits up to `limit` requests. -/
def Libaio.limited (limit : ℤ) : Libaio where
  ioQueueInit n ctx :=
    if n ≤ 0 then (-22, ctx) else if limit < n then (-11, some 0) else (0, some 1)
  rejects n ctx hn := by simp [hn]
  zeroes n ctx hn := by
    rw [if_neg (Int.not_le.mpr hn)]
    split_ifs <;> simp
  succeeds n ctx hn := by
    rw [if_neg (Int.not_le.mpr hn)]
    split_ifs <;> simp

/-- The size zero with memory to spare, and a positive size with no memory left for the
events. -/
theorem not_all_or_nothing :
    ¬AllOrNothing (newContext (.limited 65536) {} 0) ∧
    ¬AllOrNothing (newContext (.limited 65536) { events := false } 50) := by
  constructor
  · exact not_allOrNothing_of_size rfl (Int.le_refl 0)
  · intro h
    have hevents := ((allOrNothing_of_loop rfl (by decide) rfl rfl).mp h (fun _ _ => rfl) rfl).2
    exact absurd hevents (by decide)

end NewContext

end ArtemisNative
