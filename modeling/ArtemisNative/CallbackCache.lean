/-
ArtemisNative/CallbackCache.lean

`CallbackCache`, the pool of callbacks offered to applications.

It is a ring buffer under a lock: an array of `size` slots, two cursors that wrap, and a
counter.  `get` clears the slot it reads, and takes an empty slot for a pool that has not
been initialised.  An access outside of the array throws, as it does in Java.

Over it stands the queue it is meant to be, a `Fifo` of bounded capacity (`Fifo.serve`).
`Stores` relates the two: the `available` slots from the read cursor on hold the queue, the
write cursor is behind them.  Threads call the methods in any order, and what counts is the
order in which they enter the lock (`served`).
-/
import ArtemisNative.Lib.Cyclic
import ArtemisNative.Lib.Fifo
import ArtemisNative.Lib.Transition

namespace ArtemisNative

open Cyclic Transition

/-! ### The class -/

/-- The methods of the class; `none` is the argument `null`. -/
inductive CacheMethod (Callback : Type*)
  | put (callback : Option Callback)
  | get
  deriving DecidableEq, Repr

inductive JavaException
  | arrayIndexOutOfBounds
  /-- `NullPointerException("You should initialize the pool before using it")` -/
  | nullPointer
  deriving DecidableEq, Repr

/-- How a call ends: it returns a callback or `null`, it returns the cache, or it throws. -/
inductive CacheResult (Callback : Type*)
  | value (callback : Option Callback)
  | this
  | threw (e : JavaException)
  deriving DecidableEq, Repr

/-- The fields; `putAt` and `getAt` are the cursors `put` and `get`. -/
structure CallbackCache (Callback : Type*) where
  pool : List (Option Callback)
  putAt : ℕ
  getAt : ℕ
  available : ℕ
  size : ℕ
  deriving DecidableEq, Repr

namespace CallbackCache

variable {Callback : Type*}

/-- The constructor. -/
def new (size : ℕ) : CallbackCache Callback where
  pool := List.replicate size none
  putAt := 0
  getAt := 0
  available := 0
  size := size

def get (c : CallbackCache Callback) : CacheResult Callback × CallbackCache Callback :=
  if c.available ≤ 0 then
    (.value none, c)
  else
    match c.pool[c.getAt]? with
    | none => (.threw .arrayIndexOutOfBounds, c)
    | some retValue =>
      let c := { c with pool := c.pool.set c.getAt none }
      if retValue.isNone then
        (.threw .nullPointer, c)
      else
        (.value retValue,
          { c with available := c.available - 1, getAt := next c.size c.getAt })

/-- The part of `put` in the lock; the argument is not `null`. -/
def store (c : CallbackCache Callback) (callback : Callback) :
    CacheResult Callback × CallbackCache Callback :=
  if c.available < c.size then
    let c := { c with available := c.available + 1 }
    if c.putAt < c.pool.length then
      (.this, { c with
        pool := c.pool.set c.putAt (some callback)
        putAt := next c.size c.putAt })
    else
      (.threw .arrayIndexOutOfBounds, { c with putAt := c.putAt + 1 })
  else
    (.this, c)

def put (c : CallbackCache Callback) :
    Option Callback → CacheResult Callback × CallbackCache Callback
  | none => (.value none, c)
  | some callback => c.store callback

def call (c : CallbackCache Callback) :
    CacheMethod Callback → CacheResult Callback × CallbackCache Callback
  | .put callback => c.put callback
  | .get => c.get

/-- Slot `i` of the array. -/
def slot (c : CallbackCache Callback) (i : ℕ) : Option Callback := (c.pool[i]?).join

/-- The slots that are in use, from the read cursor on. -/
def contents (c : CallbackCache Callback) : List (Option Callback) :=
  window c.slot c.size c.getAt c.available

/-! ### The queue it is meant to be -/

/-- A call on a queue of capacity `size`: `put` appends if there is room, `get` takes the
oldest value. -/
def serve (size : ℕ) (q : Fifo Callback) :
    CacheMethod Callback → CacheResult Callback × Fifo Callback
  | .put none => (.value none, q)
  | .put (some callback) => (.this, if q.queue.length < size then q.push callback else q)
  | .get => (.value q.queue.head?, q.pop 1)

/-- The answers to a sequence of calls, and the queue behind them. -/
def serveAll (size : ℕ) (q : Fifo Callback) :
    List (CacheMethod Callback) → List (CacheResult Callback) × Fifo Callback
  | [] => ([], q)
  | m :: ms =>
    ((serve size q m).1 :: (serveAll size (serve size q m).2 ms).1,
      (serveAll size (serve size q m).2 ms).2)

variable {size : ℕ} {c : CallbackCache Callback} {q : Fifo Callback} {m : CacheMethod Callback}

/-- A call is at most one step of the queue. -/
theorem step_serve (size : ℕ) (q : Fifo Callback) (m : CacheMethod Callback) :
    Fifo.Step q (serve size q m).2 := by
  match m with
  | .put none => exact .idle
  | .put (some callback) =>
    show Fifo.Step q (if q.queue.length < size then q.push callback else q)
    split
    · exact .push callback
    · exact .idle
  | .get => exact .pop 1

theorem serve_ne_threw (e : JavaException) : (serve size q m).1 ≠ .threw e := by
  match m with
  | .put none | .put (some callback) | .get => nofun

theorem serveAll_snoc (ms : List (CacheMethod Callback)) :
    serveAll size q (ms ++ [m]) =
      ((serveAll size q ms).1 ++ [(serve size (serveAll size q ms).2 m).1],
        (serve size (serveAll size q ms).2 m).2) := by
  induction ms generalizing q with
  | nil => rfl
  | cons m' ms ih =>
    simp only [List.cons_append, serveAll, ih]

theorem lawful_serveAll (ms : List (CacheMethod Callback)) (h : q.Lawful) :
    (serveAll size q ms).2.Lawful := by
  induction ms generalizing q with
  | nil => exact h
  | cons m ms ih => exact ih ((step_serve size q m).lawful h)

theorem threw_not_mem_serveAll (ms : List (CacheMethod Callback)) (e : JavaException) :
    .threw e ∉ (serveAll size q ms).1 := by
  induction ms generalizing q with
  | nil => nofun
  | cons m ms ih =>
    intro hmem
    rcases List.mem_cons.mp hmem with he | hmem
    · exact serve_ne_threw e he.symm
    · exact ih hmem

/-! ### The cache stores the queue -/

/-- The cache holds the queue in its window, and its cursors are inside the array. -/
structure Stores (size : ℕ) (c : CallbackCache Callback) (q : List Callback) : Prop where
  size_eq : c.size = size
  length_pool : c.pool.length = size
  available : c.available = q.length
  room : q.length ≤ size
  getAt_lt : 0 < size → c.getAt < size
  putAt_eq : 0 < size → c.putAt = (c.getAt + q.length) % size
  window_eq : window c.slot size c.getAt q.length = q.map some

theorem Stores.contents_eq {q : List Callback} (h : Stores size c q) :
    c.contents = q.map some := by
  rw [CallbackCache.contents, h.size_eq, h.available]
  exact h.window_eq

theorem stores_new (size : ℕ) : Stores size (.new size : CallbackCache Callback) [] where
  size_eq := rfl
  length_pool := List.length_replicate
  available := rfl
  room := Nat.zero_le _
  getAt_lt := id
  putAt_eq := fun _ => (Nat.zero_mod _).symm
  window_eq := rfl

/-- Writing into the array is writing into its slots. -/
theorem slot_set {c' : CallbackCache Callback} {i : ℕ} {a : Option Callback}
    (hi : i < c.pool.length) (hpool : c'.pool = c.pool.set i a) :
    c'.slot = Function.update c.slot i a := by
  funext j
  rw [slot, hpool]
  by_cases hj : j = i
  · subst hj
    rw [Function.update_self, List.getElem?_set_self hi]
    rfl
  · rw [Function.update_of_ne hj, List.getElem?_set_ne (Ne.symm hj)]
    rfl

theorem Stores.get_nil (h : Stores size c []) : c.get = (.value none, c) :=
  if_pos (Nat.le_of_eq h.available)

theorem Stores.get_cons {a : Callback} {q : List Callback} (h : Stores size c (a :: q)) :
    ∃ c', c.get = (.value (some a), c') ∧ Stores size c' q := by
  have hroom := h.room
  rw [List.length_cons] at hroom
  have hpos : 0 < size := by omega
  have hget := h.getAt_lt hpos
  have hslot : c.getAt < c.pool.length := h.length_pool ▸ hget
  -- the first slot of the window holds `a`
  have hwin := h.window_eq
  rw [List.length_cons, window_eq_cons hget, List.map_cons] at hwin
  obtain ⟨hfirst, hrest⟩ := List.cons.inj hwin
  have hread : c.pool[c.getAt]? = some (some a) := by
    obtain ⟨d, hd⟩ : ∃ d, c.pool[c.getAt]? = some d := ⟨_, List.getElem?_eq_getElem hslot⟩
    rw [slot, hd] at hfirst
    rw [hd]
    exact congrArg some hfirst
  have hnonempty : ¬c.available ≤ 0 := by
    rw [h.available, List.length_cons]
    omega
  refine ⟨{ c with
    pool := c.pool.set c.getAt none
    available := c.available - 1
    getAt := next c.size c.getAt }, ?_, ?_⟩
  · simp only [CallbackCache.get, if_neg hnonempty, hread, Option.isNone_some,
      Bool.false_eq_true, if_false]
  · have hnext : next c.size c.getAt = (c.getAt + 1) % size := by
      rw [h.size_eq, next_eq_mod hget]
    refine ⟨h.size_eq, ?_, ?_, by omega, fun _ => ?_, fun _ => ?_, ?_⟩
    · exact List.length_set.trans h.length_pool
    · show c.available - 1 = q.length
      rw [h.available, List.length_cons, Nat.add_sub_cancel]
    · show next c.size c.getAt < size
      rw [h.size_eq]
      exact next_lt hget
    · show c.putAt = (next c.size c.getAt + q.length) % size
      rw [h.putAt_eq hpos, hnext, Nat.mod_add_mod, List.length_cons, Nat.add_assoc,
        Nat.add_comm 1]
    · -- the slot that is cleared is in front of the new window
      show window (slot _) size (next c.size c.getAt) q.length = q.map some
      rw [slot_set hslot rfl, h.size_eq, window_update_of_ne, hrest]
      intro i hi he
      rw [h.size_eq] at hnext
      rw [hnext, Nat.mod_add_mod, Nat.add_assoc] at he
      have hslot' : (c.getAt + (1 + i)) % size = (c.getAt + 0) % size := by
        rw [he, Nat.add_zero, Nat.mod_eq_of_lt hget]
      have hzero := slot_injective (by omega) hpos hslot'
      omega

theorem Stores.store {a : Callback} {q : List Callback} (h : Stores size c q)
    (hlt : q.length < size) :
    ∃ c', c.store a = (.this, c') ∧ Stores size c' (q ++ [a]) := by
  have hpos : 0 < size := by omega
  have hput : c.putAt < size := by
    rw [h.putAt_eq hpos]
    exact Nat.mod_lt _ hpos
  have hslot : c.putAt < c.pool.length := h.length_pool ▸ hput
  have hroom : c.available < c.size := by
    rw [h.available, h.size_eq]
    exact hlt
  refine ⟨{ c with
    available := c.available + 1
    pool := c.pool.set c.putAt (some a)
    putAt := next c.size c.putAt }, ?_, ?_⟩
  · simp only [CallbackCache.store, if_pos hroom, if_pos hslot]
  · have hlen : (q ++ [a]).length = q.length + 1 := by
      rw [List.length_append, List.length_singleton]
    refine ⟨h.size_eq, ?_, ?_, ?_, h.getAt_lt, fun _ => ?_, ?_⟩
    · exact List.length_set.trans h.length_pool
    · rw [hlen, ← h.available]
    · rw [hlen]
      exact hlt
    · show next c.size c.putAt = (c.getAt + (q ++ [a]).length) % size
      rw [h.size_eq, next_eq_mod hput, h.putAt_eq hpos, Nat.mod_add_mod, hlen, Nat.add_assoc]
    · show window (slot _) size c.getAt (q ++ [a]).length = (q ++ [a]).map some
      rw [slot_set hslot rfl, hlen, h.putAt_eq hpos, window_update_end hlt, h.window_eq,
        List.map_append]
      rfl

/-- **Every call answers as the queue does, and stores the queue behind it.** -/
theorem Stores.call (h : Stores size c q.queue) (m : CacheMethod Callback) :
    (c.call m).1 = (serve size q m).1 ∧ Stores size (c.call m).2 (serve size q m).2.queue := by
  match m with
  | .put none => exact ⟨rfl, h⟩
  | .put (some a) =>
    show (c.store a).1 = .this ∧ Stores size (c.store a).2
      (if q.queue.length < size then q.push a else q).queue
    by_cases hlt : q.queue.length < size
    · obtain ⟨c', hc', hs⟩ := h.store (a := a) hlt
      rw [hc', if_pos hlt]
      exact ⟨rfl, hs⟩
    · have hfull : ¬c.available < c.size := by
        rw [h.available, h.size_eq]
        exact hlt
      rw [if_neg hlt, CallbackCache.store, if_neg hfull]
      exact ⟨rfl, h⟩
  | .get =>
    show c.get.1 = .value q.queue.head? ∧ Stores size c.get.2 (q.queue.drop 1)
    rcases hq : q.queue with - | ⟨a, rest⟩
    · rw [hq] at h
      rw [h.get_nil]
      exact ⟨rfl, h⟩
    · rw [hq] at h
      obtain ⟨c', hc', hs⟩ := h.get_cons
      rw [hc']
      exact ⟨rfl, hs⟩

/-! ### Threads -/

/-- Where a thread is: outside, with what its last call returned, in front of
`synchronized (lock)`, or inside. -/
inductive Pc (Callback : Type*)
  | idle (r : Option (CacheResult Callback))
  | atLock (m : CacheMethod Callback)
  | inLock (m : CacheMethod Callback)
  deriving DecidableEq

structure State (Tid Callback : Type*) where
  cache : CallbackCache Callback
  lock : Option Tid
  pc : Tid → Pc Callback
  /-- history: the calls and how they ended, in the order in which they had the lock -/
  served : List (CacheMethod Callback × CacheResult Callback)

inductive Label (Tid Callback : Type*)
  | call (t : Tid) (m : CacheMethod Callback)
  | enter (t : Tid)
  | leave (t : Tid)

variable {Tid : Type*} [DecidableEq Tid]

def State.initial (size : ℕ) : State Tid Callback where
  cache := .new size
  lock := none
  pc := fun _ => .idle none
  served := []

/-- The call of `m` runs on the cache. -/
def State.run (s : State Tid Callback) (t : Tid) (m : CacheMethod Callback) :
    State Tid Callback :=
  { s with
    cache := (s.cache.call m).2
    pc := Function.update s.pc t (.idle (some (s.cache.call m).1))
    served := s.served ++ [(m, (s.cache.call m).1)] }

def step (s : State Tid Callback) : Label Tid Callback → Option (State Tid Callback)
  | .call t m =>
    match s.pc t with
    | .idle _ =>
      match m with
      -- `put(null)` returns in front of the lock
      | .put none => some (s.run t m)
      | _ => some { s with pc := Function.update s.pc t (.atLock m) }
    | _ => none
  | .enter t =>
    match s.pc t with
    | .atLock m =>
      if s.lock = none then
        some { s with lock := some t, pc := Function.update s.pc t (.inLock m) }
      else
        none
    | _ => none
  | .leave t =>
    match s.pc t with
    | .inLock m => some { s.run t m with lock := none }
    | _ => none

/-- The calls that had the lock, and their answers. -/
def State.calls (s : State Tid Callback) : List (CacheMethod Callback) := s.served.map Prod.fst

def State.answers (s : State Tid Callback) : List (CacheResult Callback) := s.served.map Prod.snd

/-- What the calls so far make of a queue of capacity `size`. -/
def State.queue (s : State Tid Callback) (size : ℕ) : Fifo Callback :=
  (serveAll size (.start []) s.calls).2

/-- The calls were answered as by a queue, and the cache stores it. -/
structure Linear (size : ℕ) (s : State Tid Callback) : Prop where
  answers : s.answers = (serveAll size (.start []) s.calls).1
  stores : Stores size s.cache (s.queue size).queue
  returned : ∀ t r, s.pc t = .idle (some r) → r ∈ s.answers

theorem Linear.run {s : State Tid Callback} {t : Tid} (h : Linear size s)
    (m : CacheMethod Callback) : Linear size (s.run t m) := by
  obtain ⟨hres, hstores⟩ := h.stores.call m
  have hcalls : (s.run t m).calls = s.calls ++ [m] := List.map_append
  have hanswers : (s.run t m).answers = s.answers ++ [(s.cache.call m).1] := List.map_append
  refine ⟨?_, ?_, fun u r hu => ?_⟩
  · rw [hcalls, hanswers, serveAll_snoc, hres, h.answers]
    rfl
  · rw [State.queue, hcalls, serveAll_snoc]
    exact hstores
  · rw [hanswers]
    by_cases hut : u = t
    · subst hut
      have hpc : (s.run u m).pc u = .idle (some (s.cache.call m).1) := Function.update_self _ _ _
      rw [hpc] at hu
      obtain rfl := Option.some.inj (Pc.idle.inj hu)
      exact List.mem_append_right _ (List.mem_singleton_self _)
    · have hpc : (s.run t m).pc u = s.pc u := Function.update_of_ne hut _ _
      exact List.mem_append_left _ (h.returned u r (hpc ▸ hu))

/-- A thread that waits or enters changes nothing for the others. -/
theorem Linear.move {s s' : State Tid Callback} {t : Tid} {pc : Pc Callback}
    (h : Linear size s) (hcache : s'.cache = s.cache) (hserved : s'.served = s.served)
    (hpc : s'.pc = Function.update s.pc t pc) (hne : ∀ r, pc ≠ .idle r) : Linear size s' := by
  have hcalls : s'.calls = s.calls := by rw [State.calls, hserved, State.calls]
  have hanswers : s'.answers = s.answers := by rw [State.answers, hserved, State.answers]
  refine ⟨?_, ?_, fun u r hu => ?_⟩
  · rw [hanswers, hcalls]
    exact h.answers
  · rw [hcache, State.queue, hcalls]
    exact h.stores
  · rw [hanswers]
    rw [hpc] at hu
    by_cases hut : u = t
    · subst hut
      rw [Function.update_self] at hu
      exact absurd hu (hne _)
    · rw [Function.update_of_ne hut] at hu
      exact h.returned u r hu

theorem Linear.step {s s' : State Tid Callback} {l : Label Tid Callback} (h : Linear size s)
    (hn : step s l = some s') : Linear size s' := by
  cases l with
  | call t m =>
    simp only [CallbackCache.step] at hn
    split at hn
    · split at hn
      · obtain rfl := Option.some.inj hn
        exact h.run _
      · obtain rfl := Option.some.inj hn
        exact h.move rfl rfl rfl nofun
    · cases hn
  | enter t =>
    simp only [CallbackCache.step] at hn
    split at hn
    · split at hn
      · obtain rfl := Option.some.inj hn
        exact h.move rfl rfl rfl nofun
      · cases hn
    · cases hn
  | leave t =>
    simp only [CallbackCache.step] at hn
    split at hn
    · obtain rfl := Option.some.inj hn
      have hr := h.run (t := t) ‹_›
      exact ⟨hr.answers, hr.stores, hr.returned⟩
    · cases hn

omit [DecidableEq Tid] in
theorem Linear.initial (size : ℕ) : Linear size (.initial size : State Tid Callback) where
  answers := rfl
  stores := stores_new size
  returned := nofun

/-- **`CallbackCache` is a bounded FIFO queue.**  In every order in which threads enter the
lock, the calls are answered as by a queue of capacity `size`: the cache holds this queue,
which loses and repeats nothing; no call throws; and the slot that the next call accesses is
inside the array. -/
theorem bounded_fifo {s : State Tid Callback}
    (hr : Reaches step (fun _ _ => True) (.initial size) s) :
    s.answers = (serveAll size (.start []) s.calls).1 ∧
    s.cache.contents = (s.queue size).queue.map some ∧
    (s.queue size).queue.length ≤ size ∧
    (s.queue size).popped ++ (s.queue size).queue = (s.queue size).pushed ∧
    (∀ e, .threw e ∉ s.answers) ∧
    (∀ t r, s.pc t = .idle (some r) → r ∈ s.answers) ∧
    s.cache.pool.length = size ∧
    (s.cache.available < s.cache.size → s.cache.putAt < size) ∧
    (0 < s.cache.available → s.cache.getAt < size) := by
  have h : Linear size s := hr.invariant (.initial size) fun _ _ _ h _ hn => h.step hn
  have hst := h.stores
  have hroom := hst.room
  refine ⟨h.answers, hst.contents_eq, hroom, lawful_serveAll _ (Fifo.lawful_start []),
    fun e => ?_, h.returned, hst.length_pool, fun hlt => ?_, fun hlt => ?_⟩
  · rw [h.answers]
    exact threw_not_mem_serveAll _ e
  · rw [hst.size_eq] at hlt
    have hpos : 0 < size := by omega
    rw [hst.putAt_eq hpos]
    exact Nat.mod_lt _ hpos
  · rw [hst.available] at hlt
    exact hst.getAt_lt (by omega)

/-- Two threads put while the other waits at the lock; the cache has one slot, and the
callback that came first is handed out. -/
theorem bounded_fifo_full : ∃ s : State Bool ℕ,
    Reaches step (fun _ _ => True) (.initial 1) s ∧
      s.answers = [.this, .this, .value (some 7), .value none] ∧
      (s.queue 1).popped ++ (s.queue 1).queue = (s.queue 1).pushed := by
  obtain ⟨s, hr, hanswers⟩ := exists_of_exec step (fun _ _ => True)
    (.initial 1 : State Bool ℕ)
    [.call true (.put (some 7)), .call false (.put (some 8)), .enter true, .leave true,
      .enter false, .leave false, .call false .get, .enter false, .call true .get,
      .leave false, .enter true, .leave true]
    (fun s => s.answers = [.this, .this, .value (some 7), .value none]) (by decide)
  obtain ⟨-, -, -, hlawful, -⟩ := bounded_fifo hr
  exact ⟨s, hr, hanswers, hlawful⟩

end CallbackCache

end ArtemisNative
