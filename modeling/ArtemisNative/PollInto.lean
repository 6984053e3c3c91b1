/-
ArtemisNative/PollInto.lean

The contract of `poll(callbacks, min, max)`.

"It will poll the libaio queue for results. It should block until min is reached".  The
call reads a batch and works through it: the callback of a failed request is told, the
callback is stored in the array, its reference is deleted and the iocb put back; behind
the loop the permits of all the events are released.  `Polling` is the invariant of the
loop, with one count for each of these (`Pc.progress`).

The contract fails in two ways (`poll_contract_iff`).  The wait is not repeated when it
is interrupted, as `blockedPoll` repeats it: the error becomes the number of callbacks.
And nothing is stored for a request without a callback, so that its slot still holds what
the caller's array held before.
-/
import ArtemisNative.Ledger
import ArtemisNative.Undo

namespace ArtemisNative

open Transition

variable {Tid : Type} [DecidableEq Tid] {cfg : Config} {s s' x x' : State Tid} {t p : Tid}
variable {ans : Answer} {l : Label Tid} {ls : List (Label Tid)} {env : Process}
variable {cs callbacks callbacks' : List (Option ℕ)} {c : Option ℕ} {e : IoEvent}
variable {i k o : ℕ} {min max n : ℤ}

/-- Only thread `p` polls, the kernel delivers one event per accepted iocb, and
`deleteContext` does not begin. -/
def PollsAlone (p : Tid) (s : State Tid) (l : Label Tid) : Prop :=
  OnePoller p l ∧ DeliversOnce l ∧ BeforeDelete s l

instance (p : Tid) (s : State Tid) : DecidablePred (PollsAlone p s) := fun _ =>
  inferInstanceAs (Decidable (_ ∧ _ ∧ _))

/-! ### The contract -/

/-- The observations about errors, and the requests whose events were read. -/
def Obs.isError : Obs → Bool
  | .onError _ _ _ => true
  | _ => false

def Obs.polled? : Obs → Option ℕ
  | .polled o => some o
  | _ => none

namespace State

def errors (s : State Tid) : List Obs := s.log.filter Obs.isError

def polledOps (s : State Tid) : List ℕ := s.log.filterMap Obs.polled?

section

omit [DecidableEq Tid]

@[simp] theorem errors_record (obs : List Obs) :
    (s.record obs).errors = s.errors ++ obs.filter Obs.isError := List.filter_append _ _

@[simp] theorem polledOps_record (obs : List Obs) :
    (s.record obs).polledOps = s.polledOps ++ obs.filterMap Obs.polled? := List.filterMap_append

@[simp] theorem errors_polled (k : ℕ) : (s.getEvents k .polled).errors = s.errors := by
  have hnone : (s.ring.take k).filter (Obs.isError ∘ fun e => .polled e.op) = [] :=
    List.filter_eq_nil_iff.mpr fun _ _ => Bool.false_ne_true
  simp only [errors, getEvents, List.filter_append, List.filter_map, hnone, List.map_nil,
    List.append_nil]

@[simp] theorem polledOps_polled (k : ℕ) :
    (s.getEvents k .polled).polledOps = s.polledOps ++ (s.ring.take k).map (·.op) := by
  have hall : (Obs.polled? ∘ fun e : IoEvent => Obs.polled e.op) = some ∘ (·.op) := rfl
  simp only [polledOps, getEvents, List.filterMap_append, List.filterMap_map, hall,
    List.filterMap_eq_map]

@[simp] theorem errors_putBack (b : ℕ) : (s.putBack b).errors = s.errors := rfl

@[simp] theorem polledOps_putBack (b : ℕ) : (s.putBack b).polledOps = s.polledOps := rfl

end

@[simp] theorem errors_goto (q : Pc) : (s.goto t q).errors = s.errors := rfl

@[simp] theorem polledOps_goto (q : Pc) : (s.goto t q).polledOps = s.polledOps := rfl

/-- The events that a wait takes when it returns `n`. -/
def oldest (s : State Tid) (n : ℤ) : List IoEvent := s.ring.take n.toNat

/-- The callback that was passed to the submission of request `o`. -/
def callbackOf (s : State Tid) (o : ℕ) : Option ℕ := s.accepted[o]?.bind Origin.callback

/-- `onError` for an event, if there is an error and a callback. -/
def noticeOf (s : State Tid) (e : IoEvent) : List Obs :=
  if e.res < 0 ∧ s.callbackOf e.op ≠ none then
    [.onError e.op (s.callbackOf e.op) (-e.res)]
  else []

end State

/-- What a call of `poll(callbacks, min, max)` by thread `p` promises that waits in state
`s` and has returned `n` in state `s'`, by the labels `ls`. -/
structure PollContract (cfg : Config) (p : Tid) (s : State Tid) (ls : List (Label Tid))
    (s' : State Tid) (callbacks : List (Option ℕ)) (min max n : ℤ)
    (callbacks' : List (Option ℕ)) : Prop where
  bounds : min ≤ n ∧ n ≤ max
  /-- `n` events have been reaped, the oldest first, all of submissions -/
  reaped : n.toNat ≤ s.ring.length ∧
    s'.polledOps = s.polledOps ++ (s.oldest n).map (·.op) ∧
    ∀ e ∈ s.oldest n, ∃ a, s.accepted[e.op]? = some (.user a)
  entries : ∀ (i : ℕ) (e : IoEvent), (s.oldest n)[i]? = some e →
    callbacks'[i]? = some (s.callbackOf e.op)
  rest : ∀ i : ℕ, n ≤ i → callbacks'[i]? = callbacks[i]?
  errors : s'.errors = s.errors ++ (s.oldest n).flatMap s.noticeOf
  /-- the call has put back the iocbs of these events, each once, and no other -/
  iocbs : ((s.oldest n).map (·.obj)).Nodup ∧ ∀ b,
    net (next cfg) (Label.isOf p) (·.amount (.iocb b)) s ls =
      if b ∈ (s.oldest n).map (·.obj) then 1 else 0
  permits : net (next cfg) (Label.isOf p) (·.amount .permits) s ls =
    if cfg.useSemaphore then n else 0

/-! ### The array -/

/-- The array when the first `k` of the callbacks `cs` have been stored; `null` is not
stored. -/
def filled (cs callbacks : List (Option ℕ)) (k : ℕ) : List (Option ℕ) :=
  callbacks.mapIdx fun i c => if i < k then cs[i]?.join.or c else c

@[simp] theorem filled_zero : filled cs callbacks 0 = callbacks := by
  apply List.ext_getElem?
  intro i
  simp [filled]

@[simp] theorem length_filled : (filled cs callbacks k).length = callbacks.length := by
  simp [filled]

theorem getElem?_filled : (filled cs callbacks k)[i]? =
    callbacks[i]?.map fun c => if i < k then cs[i]?.join.or c else c := by
  simp [filled]

theorem filled_store (hc : cs[k]? = some c) (hne : c ≠ none) :
    (filled cs callbacks k).set k c = filled cs callbacks (k + 1) := by
  apply List.ext_getElem?
  intro i
  rw [List.getElem?_set, length_filled, getElem?_filled, getElem?_filled]
  by_cases hik : k = i
  · subst hik
    obtain ⟨d, rfl⟩ := Option.ne_none_iff_exists'.mp hne
    by_cases hk : k < callbacks.length <;> simp [hk, hc]
  · have hlt : i < k ↔ i < k + 1 := by omega
    simp only [if_neg hik, hlt]

theorem filled_skip (hc : cs[k]? = some none) :
    filled cs callbacks (k + 1) = filled cs callbacks k := by
  apply List.ext_getElem?
  intro i
  rw [getElem?_filled, getElem?_filled]
  by_cases hik : k = i
  · subst hik
    simp [hc]
  · have hlt : i < k ↔ i < k + 1 := by omega
    simp only [hlt]

theorem filled_of_length_le (h : cs.length ≤ i) :
    (filled cs callbacks k)[i]? = callbacks[i]? := by
  rw [getElem?_filled, List.getElem?_eq_none h]
  simp

/-- The array holds all the callbacks if and only if it held `null` where `null` was not
stored. -/
theorem filled_eq_iff (hlen : cs.length ≤ callbacks.length) :
    (∀ (i : ℕ) c, cs[i]? = some c → (filled cs callbacks cs.length)[i]? = some c) ↔
      ∀ i : ℕ, cs[i]? = some none → callbacks[i]? = some none := by
  have hat : ∀ (i : ℕ) c, cs[i]? = some c →
      ((filled cs callbacks cs.length)[i]? = some c ↔ (c = none → callbacks[i]? = some none)) := by
    intro i c hc
    have hi : i < cs.length := (List.getElem?_eq_some_iff.mp hc).1
    obtain ⟨d, hd⟩ : ∃ d, callbacks[i]? = some d := ⟨_, List.getElem?_eq_getElem (by omega)⟩
    rw [getElem?_filled, hd, hc]
    cases c <;> simp [hi]
  constructor
  · intro h i hi
    exact (hat i none hi).mp (h i none hi) rfl
  · intro h i c hc
    refine (hat i c hc).mpr ?_
    rintro rfl
    exact h i hc

/-! ### The loop -/

/-- How far a call has come with a batch: the events whose errors have been told, whose
callbacks have been stored and whose iocbs have been put back, and the array. -/
structure Progress where
  told : ℕ
  stored : ℕ
  back : ℕ
  callbacks : List (Option ℕ)
  pending : Bool

/-- The progress of a call that works on `k` events. -/
def Pc.progress (k : ℕ) : Pc → Option Progress
  | .poll (.event f .onError) => some ⟨f.i, f.i, f.i, f.callbacks, f.pending⟩
  | .poll (.event f .store) => some ⟨f.i + 1, f.i, f.i, f.callbacks, f.pending⟩
  | .poll (.event f _) => some ⟨f.i + 1, f.i + 1, f.i, f.callbacks, f.pending⟩
  | .poll (.release _ callbacks pending) => some ⟨k, k, k, callbacks, pending⟩
  | .idle (.polled _ callbacks) => some ⟨k, k, k, callbacks, false⟩
  | .idle (.threw _) => some ⟨k, k, k, [], true⟩
  | _ => none

/-- The call works on `n` events, and its index is among them. -/
def Pc.Counts (n : ℤ) : Pc → Prop
  | .poll (.event f .onError) => f.result = n ∧ f.i ≤ f.result
  | .poll (.event f _) => f.result = n ∧ f.i < f.result
  | .poll (.release m _ _) | .idle (.polled m _) => m = n
  | _ => True

/-- What the call has told and stored is right, up to where it is. -/
def Progress.Right (s x : State Tid) (callbacks : List (Option ℕ)) (n : ℤ) (c : Progress) :
    Prop :=
  c.callbacks = filled ((s.oldest n).map fun e => s.callbackOf e.op) callbacks c.stored ∧
    x.errors = s.errors ++ ((s.oldest n).take c.told).flatMap s.noticeOf

/-- State `x` of a call that has read `n` events in state `s`.  With an exception
pending it is bound to throw. -/
structure Polling (s : State Tid) (p : Tid) (callbacks : List (Option ℕ)) (n : ℤ)
    (x : State Tid) : Prop where
  available : n.toNat ≤ s.ring.length
  grown : s.accepted <+: x.accepted
  counts : (x.pc p).Counts n
  reaped : x.polledOps = s.polledOps ++ (s.oldest n).map (·.op)
  buffer : (x.pc p).inBatch = true → ∀ (i : ℕ) e, (s.oldest n)[i]? = some e → x.events i = e
  progress : ∃ c, (x.pc p).progress (s.oldest n).length = some c ∧
    (c.pending = false → c.Right s x callbacks n)

/-- Only a thread that polls calls `onError` or reads events for the caller. -/
theorem SoloPoller.log_kept (h : SoloPoller p s) (hn : next cfg s l = some s')
    (hl : l.tid? ≠ some p) : s'.errors = s.errors ∧ s'.polledOps = s.polledOps := by
  have hne : ∀ {t : Tid}, l.tid? = some t → (s.pc t).polls = true → False := by
    intro t ht hpoll
    obtain rfl := h.polls t hpoll
    exact hl ht
  cases next_moves hn with
  | call t o m _ hpc hm => cases hm <;> exact ⟨rfl, rfl⟩
  | submit t ans q _ hpc hm => cases hm <;> exact ⟨rfl, rfl⟩
  | blocked t ans q _ hpc hm => exact (hne rfl (by rw [hpc]; rfl)).elim
  | poll t ans q _ hpc hm => exact (hne rfl (by rw [hpc]; rfl)).elim
  | close t ans q _ hpc hm =>
    cases hm with
    | read k _ _ =>
      have hdown := h.before t
      rw [hpc] at hdown
      cases hdown
    | _ => exact ⟨rfl, rfl⟩
  | complete k res r hr _ =>
    simp [State.errors, State.polledOps, State.complete, Obs.isError, Obs.polled?]
  | redeliver k ev _ => exact ⟨rfl, rfl⟩
  | setForceSyscall value => exact ⟨rfl, rfl⟩
  | closeDumbHandlers => exact ⟨rfl, rfl⟩

/-- The other threads leave the call alone. -/
theorem Polling.other (h : Polling s p callbacks n x) (hsolo : SoloPoller p x)
    (hn : next cfg x l = some x') (hl : l.tid? ≠ some p) : Polling s p callbacks n x' := by
  obtain ⟨herr, hops⟩ := hsolo.log_kept hn hl
  have hpc := next_pc_of_ne hn hl
  refine ⟨h.available, h.grown.trans (next_appends hn).1, ?_, ?_, ?_, ?_⟩
  · rw [hpc]
    exact h.counts
  · rw [hops]
    exact h.reaped
  · intro hbatch i e he
    rw [hpc] at hbatch
    rw [next_events (hsolo.readsAlone l) hn hbatch hl]
    exact h.buffer hbatch i e he
  · rw [hpc]
    obtain ⟨c, hc, hright⟩ := h.progress
    refine ⟨c, hc, fun hp => ⟨(hright hp).1, ?_⟩⟩
    rw [herr]
    exact (hright hp).2

omit [DecidableEq Tid] in
theorem length_oldest (hn : n.toNat ≤ s.ring.length) : (s.oldest n).length = n.toNat := by
  rw [State.oldest, List.length_take]
  omega

omit [DecidableEq Tid] in
theorem Matched.oldest (h : Matched s) (he : e ∈ s.oldest n) :
    ∃ g, s.accepted[e.op]? = some g := by
  have hreq : (e.obj, e.op) ∈ s.requests none :=
    List.mem_append_right _ (List.mem_map.mpr ⟨e, List.take_subset _ _ he, rfl⟩)
  obtain ⟨g, hg, -⟩ := h.transit _ _ _ hreq
  exact ⟨g, hg⟩

omit [DecidableEq Tid] in
theorem State.callbackOf_eq {g : Origin} (hg : s.accepted[o]? = some g) :
    s.callbackOf o = g.callback := by
  rw [State.callbackOf, hg]
  rfl

theorem Pc.Counts.result {f : PollFrame} {st : PollStage}
    (h : (Pc.poll (.event f st)).Counts n) : (f.result : ℤ) = n := by
  cases st <;> exact h.1

omit [DecidableEq Tid] in
/-- The event at hand is one of those that were read. -/
theorem Polling.event_at {f : PollFrame} {st : PollStage} (h : Polling s p callbacks n x)
    (hpc : x.pc p = .poll (.event f st)) (hlt : f.i < f.result) :
    (s.oldest n)[f.i]? = some (x.events f.i) := by
  have hcounts := h.counts
  rw [hpc] at hcounts
  have hi : f.i < (s.oldest n).length := by
    rw [length_oldest h.available]
    have hres := hcounts.result
    omega
  have hget := List.getElem?_eq_getElem hi
  rwa [← h.buffer (by rw [hpc]; rfl) f.i _ hget] at hget

omit [DecidableEq Tid] in
/-- What the call finds in the iocb of the event at hand. -/
theorem Polling.at_hand {f : PollFrame} {st : PollStage} (h : Polling s p callbacks n x)
    (hpc : x.pc p = .poll (.event f st)) (hlt : f.i < f.result)
    (hst : st = .onError ∨ st = .store) (hmat : Matched x) (hs : Matched s) :
    (s.oldest n)[f.i]? = some (x.events f.i) ∧
      (((x.iocb (x.events f.i).obj).data ≠ .null ∧ (x.iocb (x.events f.i).obj).data ≠ .stop) ↔
        s.callbackOf (x.events f.i).op ≠ none) ∧
      x.refs.deref (x.iocb (x.events f.i).obj).data = s.callbackOf (x.events f.i).op := by
  have he := h.event_at hpc hlt
  have hreq : ((x.events f.i).obj, (x.events f.i).op) ∈ x.requests (some p) := by
    rcases hst with rfl | rfl <;>
      simp [State.requests, State.view, hpc, Pc.view, eventsFrom_of_lt hlt]
  -- the request is the same as when its event was read
  obtain ⟨g, hg⟩ := hs.oldest (List.mem_of_getElem? he)
  obtain ⟨g', hg', hfit, -⟩ := hmat.transit _ _ _ hreq
  obtain rfl := Option.some.inj ((getElem?_of_isPrefix h.grown hg).symm.trans hg')
  rw [s.callbackOf_eq hg]
  exact ⟨he, hfit.callback_iff, hfit.deref⟩

omit [DecidableEq Tid] in
/-- The call goes on in the same batch. -/
theorem Polling.go {q : Pc} (h : Polling s p callbacks n x) (hacc : x'.accepted = x.accepted)
    (hev : x'.events = x.events) (hops : x'.polledOps = x.polledOps) (hq : x'.pc p = q)
    (hbatch : q.inBatch = true → (x.pc p).inBatch = true) (hcounts : q.Counts n)
    (hprog : ∃ c, q.progress (s.oldest n).length = some c ∧
      (c.pending = false → c.Right s x' callbacks n)) : Polling s p callbacks n x' := by
  refine ⟨h.available, hacc ▸ h.grown, hq ▸ hcounts, hops ▸ h.reaped, ?_, hq ▸ hprog⟩
  intro hb i e he
  rw [hq] at hb
  rw [hev]
  exact h.buffer (hbatch hb) i e he

omit [DecidableEq Tid] in
/-- One more event has been looked at for an error. -/
theorem notices_succ (he : (s.oldest n)[k]? = some e) :
    ((s.oldest n).take (k + 1)).flatMap s.noticeOf =
      ((s.oldest n).take k).flatMap s.noticeOf ++ s.noticeOf e := by
  rw [List.take_add_one, he, List.flatMap_append]
  simp

/-- A step of the call itself. -/
theorem Polling.move {q : PollPc} (h : Polling s p callbacks n x) (hs : Matched s)
    (hmat : Matched x) (hpc : x.pc p = .poll q) (hm : PollMoves cfg x p ans q x') :
    Polling s p callbacks n x' := by
  have hcounts := h.counts
  obtain ⟨c, hc, hright⟩ := h.progress
  rw [hpc] at hcounts hc
  have hin : ∀ {f st}, q = .event f st → (x.pc p).inBatch = true := by
    rintro f st rfl
    rw [hpc]
    rfl
  cases hm with
  | readFailed callbacks min max _ => cases hc
  | read callbacks min max k _ _ => cases hc
  | batchEnd f hle =>
    obtain rfl := Option.some.inj hc
    have hi : f.i = (s.oldest n).length := by
      rw [length_oldest h.available]
      have hres : (f.result : ℤ) = n := hcounts.1
      have hle' : f.i ≤ f.result := hcounts.2
      omega
    refine h.go rfl rfl rfl (State.pc_goto _ _ _) nofun hcounts.1 ⟨_, rfl, fun hp => ?_⟩
    rw [← hi]
    exact hright hp
  | noError f hlt hno =>
    obtain rfl := Option.some.inj hc
    obtain ⟨he, hcb, -⟩ := h.at_hand hpc hlt (.inl rfl) hmat hs
    refine h.go rfl rfl rfl (State.pc_goto _ _ _) (fun _ => hin rfl) ⟨hcounts.1, hlt⟩ ⟨_, rfl, fun hp => ?_⟩
    refine ⟨(hright hp).1, ?_⟩
    have hquiet : s.noticeOf (x.events f.i) = [] := by
      refine if_neg fun hboth => hno ⟨hboth.1, hcb.mpr hboth.2⟩
    rw [notices_succ he, hquiet, List.append_nil]
    exact (hright hp).2
  | errorSkipped f hlt _ hpend =>
    refine h.go rfl rfl rfl (State.pc_goto _ _ _) (fun _ => hin rfl) ⟨hcounts.1, hlt⟩ ⟨_, rfl, fun hp => ?_⟩
    cases hpend.symm.trans hp
  | errorCalled f hlt hres hnull hstop =>
    obtain rfl := Option.some.inj hc
    obtain ⟨he, hcb, hderef⟩ := h.at_hand hpc hlt (.inl rfl) hmat hs
    refine h.go rfl rfl (by simp [Obs.polled?])
      (State.pc_goto _ _ _) (fun _ => hin rfl) ⟨hcounts.1, hlt⟩ ⟨_, rfl, fun hp => ?_⟩
    obtain ⟨hcbs, herr⟩ := hright (Bool.or_eq_false_iff.mp hp).1
    refine ⟨hcbs, ?_⟩
    have hnotice : s.noticeOf (x.events f.i) = [.onError (x.events f.i).op
        (s.callbackOf (x.events f.i).op) (-(x.events f.i).res)] :=
      if_pos ⟨hres, hcb.mp ⟨hnull, hstop⟩⟩
    rw [notices_succ he, hnotice, ← List.append_assoc, ← herr, hderef]
    simp [Obs.isError]
  | stored f hnull hstop hlen =>
    obtain rfl := Option.some.inj hc
    obtain ⟨he, hcb, hderef⟩ := h.at_hand hpc hcounts.2 (.inr rfl) hmat hs
    refine h.go rfl rfl (by simp [Obs.polled?])
      (State.pc_goto _ _ _) (fun _ => hin rfl) hcounts ⟨_, rfl, fun hp => ?_⟩
    obtain ⟨hcbs, herr⟩ := hright hp
    constructor
    · rw [hderef]
      show f.callbacks.set f.i _ = _
      rw [show f.callbacks = _ from hcbs]
      exact filled_store (by simp [he]) (hcb.mp ⟨hnull, hstop⟩)
    · refine Eq.trans ?_ herr
      simp [Obs.isError]
  | storeThrew f _ _ =>
    exact h.go rfl rfl rfl (State.pc_goto _ _ _) (fun _ => hin rfl) hcounts ⟨_, rfl, nofun⟩
  | notStored f hno =>
    obtain rfl := Option.some.inj hc
    obtain ⟨he, hcb, -⟩ := h.at_hand hpc hcounts.2 (.inr rfl) hmat hs
    refine h.go rfl rfl rfl (State.pc_goto _ _ _) (fun _ => hin rfl) hcounts ⟨_, rfl, fun hp => ?_⟩
    obtain ⟨hcbs, herr⟩ := hright hp
    have hnone : s.callbackOf (x.events f.i).op = none := by
      by_contra hne
      exact hno.elim (hcb.mpr hne).1 (hcb.mpr hne).2
    refine ⟨?_, herr⟩
    rw [filled_skip (by simp [he, hnone])]
    exact hcbs
  | refDeleted f =>
    exact h.go rfl rfl rfl (State.pc_goto _ _ _) (fun _ => hin rfl) hcounts ⟨c, hc, hright⟩
  | put f =>
    obtain rfl := Option.some.inj hc
    have hlt : f.i < f.result := hcounts.2
    refine h.go rfl rfl (by simp [Obs.polled?])
      (State.pc_goto _ _ _) (fun _ => hin rfl) ⟨hcounts.1, hlt⟩ ⟨_, rfl, fun hp => ⟨(hright hp).1, ?_⟩⟩
    refine Eq.trans ?_ (hright hp).2
    simp [Obs.isError]
  | threw m callbacks => exact h.go rfl rfl rfl (State.pc_goto _ _ _) nofun trivial ⟨_, rfl, nofun⟩
  | released m callbacks _ _ =>
    obtain rfl := Option.some.inj hc
    refine h.go rfl rfl (by simp [State.polledOps, State.record, State.goto, Obs.polled?])
      (State.pc_goto _ _ _) nofun hcounts ⟨_, rfl, fun hp => ⟨(hright rfl).1, ?_⟩⟩
    refine Eq.trans ?_ (hright rfl).2
    simp [State.errors, State.record, State.goto, Obs.isError]
  | notReleased m callbacks _ =>
    obtain rfl := Option.some.inj hc
    exact h.go rfl rfl rfl (State.pc_goto _ _ _) nofun hcounts ⟨_, rfl, fun _ => hright rfl⟩

/-! ### What the call gives back -/

/-- The iocbs of the events `L` have been put back. -/
def putBacks (L : List IoEvent) (y : Resource) : ℤ := -(L.map fun e => owning e.obj y).sum

theorem putBacks_succ {L : List IoEvent} {y : Resource} (he : L[k]? = some e) :
    putBacks (L.take (k + 1)) y = putBacks (L.take k) y - owning e.obj y := by
  simp only [putBacks, List.take_add_one, he, Option.toList_some, List.map_append, List.map_cons,
    List.map_nil, List.sum_append, List.sum_singleton]
  omega

theorem putBacks_iocb {L : List IoEvent} {b : ℕ} (h : (L.map (·.obj)).Nodup) :
    putBacks L (.iocb b) = if b ∈ L.map (·.obj) then 1 else 0 := by
  induction L with
  | nil => rfl
  | cons e L ih =>
    obtain ⟨hnot, hnd⟩ := List.nodup_cons.mp h
    have ih := ih hnd
    simp only [putBacks, owning, List.map_cons, List.sum_cons, List.mem_cons] at ih ⊢
    by_cases hb : b = e.obj
    · subst hb
      rw [if_neg hnot] at ih
      simp only [true_or, if_true]
      omega
    · simp only [hb, false_or, if_false]
      omega

theorem putBacks_permits (L : List IoEvent) : putBacks L .permits = 0 := by
  induction L with
  | nil => rfl
  | cons e L ih =>
    simp only [putBacks, owning, List.map_cons, List.sum_cons] at ih ⊢
    omega

/-- The permits of `n` events have been released. -/
def releases (cfg : Config) (n : ℤ) : Resource → ℤ
  | .permits => if cfg.useSemaphore then n.toNat else 0
  | _ => 0

/-- What a call that works on the events `L` has given back. -/
def Pc.givenBack (cfg : Config) (L : List IoEvent) (y : Resource) : Pc → ℤ
  | .poll (.event f _) => putBacks (L.take f.i) y
  | .idle (.polled n _) => putBacks L y + releases cfg n y
  | _ => putBacks L y

/-- A step of the call moves what it has given back and the resources together. -/
theorem Polling.gives {q : PollPc} {y : Resource} (h : Polling s p callbacks n x)
    (hown : Owned cfg x) (hpc : x.pc p = .poll q) (hm : PollMoves cfg x p ans q x')
    (hy : ∀ r, y ≠ .ref r) :
    x'.amount y - x.amount y = (x'.pc p).givenBack cfg (s.oldest n) y -
      (x.pc p).givenBack cfg (s.oldest n) y := by
  have hcounts := h.counts
  obtain ⟨c, hc, -⟩ := h.progress
  rw [hpc] at hcounts hc
  rw [hpc]
  -- where the amounts stay
  have hquiet : ∀ {q'}, x'.amount y = x.amount y → x'.pc p = q' →
      q'.givenBack cfg (s.oldest n) y = (Pc.poll q).givenBack cfg (s.oldest n) y →
      x'.amount y - x.amount y = (x'.pc p).givenBack cfg (s.oldest n) y -
        (Pc.poll q).givenBack cfg (s.oldest n) y := by
    intro q' ha hq hgive
    rw [ha, hq, hgive, sub_self, sub_self]
  cases hm with
  | readFailed callbacks min max _ => cases hc
  | read callbacks min max k _ _ => cases hc
  | batchEnd f hle =>
    refine hquiet rfl (State.pc_goto _ _ _) ?_
    have hlen : (s.oldest n).length ≤ f.i := by
      rw [length_oldest h.available]
      have hres := hcounts.result
      omega
    show putBacks (s.oldest n) y = putBacks ((s.oldest n).take f.i) y
    rw [List.take_of_length_le hlen]
  | refDeleted f =>
    refine hquiet ?_ (State.pc_goto _ _ _) rfl
    cases y with
    | ref r => exact absurd rfl (hy r)
    | _ => rfl
  | put f =>
    have he := h.event_at hpc hcounts.2
    have hout : (x.events f.i).obj ∈ x.outstanding := by
      refine hown.custody.subset (some p) _ ?_
      rw [State.holders, hpc]
      exact List.mem_cons_self
    rw [State.pc_goto]
    have ha : ∀ (x : State Tid) obs q, ((x.record obs).goto p q).amount = x.amount :=
      fun _ _ _ => rfl
    rw [ha, amount_putBack hout]
    simp only [Pc.givenBack, putBacks_succ he, Pi.sub_apply]
    omega
  | released m callbacks hsem _ =>
    rw [State.pc_goto]
    cases y with
    | ref r => exact absurd rfl (hy r)
    | permits =>
      simp only [Pc.givenBack, releases, hsem, if_true, State.amount, State.record, State.goto]
      omega
    | used | iocb b =>
      simp only [Pc.givenBack, releases]
      exact (sub_self _).trans (by omega)
  | notReleased m callbacks hno =>
    refine hquiet rfl (State.pc_goto _ _ _) ?_
    have hzero : releases cfg m y = 0 := by
      cases y with
      | permits =>
        simp only [releases]
        split
        · rename_i hsem
          have hm : ¬0 < m := fun hm => hno ⟨hsem, hm⟩
          omega
        · rfl
      | _ => rfl
    simp only [Pc.givenBack, hzero, add_zero]
  | threw m callbacks => exact hquiet rfl (State.pc_goto _ _ _) rfl
  | _ => exact hquiet rfl (State.pc_goto _ _ _) rfl

/-! ### A whole call -/

/-- The invariants of a run in which thread `p` polls alone. -/
structure LonePoller (cfg : Config) (p : Tid) (s : State Tid) : Prop where
  owned : Owned cfg s
  matched : Matched s
  solo : SoloPoller p s
  undeleted : Undeleted s

theorem LonePoller.step (h : LonePoller cfg p s) (hl : PollsAlone p s l)
    (hn : next cfg s l = some s') : LonePoller cfg p s' := by
  obtain ⟨hone, honce, hbefore⟩ := hl
  have hal := h.solo.readsAlone l
  exact ⟨h.owned.step honce hal hn, h.matched.step h.owned honce hal hn,
    h.solo.step ⟨hone, honce, h.undeleted.upToSentinel l⟩ hn, h.undeleted.step hbefore hn⟩

omit [DecidableEq Tid] in
theorem LonePoller.initial (hq : 0 < cfg.queueSize) (env : Process) :
    LonePoller cfg p (.initial cfg env : State Tid) :=
  ⟨.initial hq env, .initial env, .initial env, .initial env⟩

/-- The wait of the call. -/
theorem poll_wait (hpc : s.pc p = .poll (.getEvents callbacks min max))
    (hn : next cfg s (.step p ans) = some s') : s.mayReturn max ans.events ∧
      s' = if ans.events < 0 then s.goto p (.poll (.release ans.events callbacks false))
        else (s.getEvents ans.events.toNat .polled).goto p
          (.poll (.event ⟨0, ans.events.toNat, callbacks, false⟩ .onError)) := by
  simp only [next, hpc, threadStep, pollStep] at hn
  split at hn
  · rename_i hret
    refine ⟨hret, ?_⟩
    split at hn
    · rename_i hneg
      rw [if_pos hneg]
      exact (Option.some.inj hn).symm
    · rename_i hneg
      rw [if_neg hneg]
      exact (Option.some.inj hn).symm
  · cases hn

/-- The call begins to work on what it has read. -/
theorem Polling.begin (hpc : s.pc p = .poll (.getEvents callbacks min max))
    (hn : next cfg s (.step p ans) = some x) : Polling s p callbacks ans.events x ∧
      ∀ y, (x.pc p).givenBack cfg (s.oldest ans.events) y = 0 ∧ x.amount y = s.amount y := by
  obtain ⟨hret, rfl⟩ := poll_wait hpc hn
  by_cases hneg : ans.events < 0
  · have hnil : s.oldest ans.events = [] := by
      rw [State.oldest, Int.toNat_of_nonpos (by omega), List.take_zero]
    rw [if_pos hneg]
    refine ⟨⟨?_, List.prefix_rfl, ?_, ?_, ?_, ?_⟩, fun y => ⟨?_, rfl⟩⟩
    · rw [Int.toNat_of_nonpos (by omega)]
      exact Nat.zero_le _
    · rw [State.pc_goto]
      rfl
    · rw [hnil]
      exact (List.append_nil _).symm
    · rw [State.pc_goto]
      nofun
    · rw [State.pc_goto]
      refine ⟨_, rfl, fun _ => ⟨?_, ?_⟩⟩
      · simp [hnil]
      · simp [hnil]
    · rw [State.pc_goto, hnil]
      rfl
  · have hroom : ans.events.toNat ≤ s.ring.length := (hret.resolve_left hneg).2
    rw [if_neg hneg]
    refine ⟨⟨hroom, List.prefix_rfl, ?_, ?_, ?_, ?_⟩, fun y => ⟨?_, rfl⟩⟩
    · rw [State.pc_goto]
      exact ⟨Int.toNat_of_nonneg (by omega), Nat.zero_le _⟩
    · simp [State.oldest]
    · intro _ i e he
      show ((s.ring.take ans.events.toNat)[i]?).getD (s.events i) = e
      rw [show (s.ring.take ans.events.toNat)[i]? = some e from he]
      rfl
    · rw [State.pc_goto]
      refine ⟨_, rfl, fun _ => ⟨filled_zero.symm, ?_⟩⟩
      simp
    · rw [State.pc_goto]
      rfl

/-- A step of a run in which the thread does not leave the call by another call. -/
theorem Polling.step (h : Polling s p callbacks n x) (hs : Matched s) (hlone : LonePoller cfg p x)
    (hl : ∀ m, l ≠ .call p m) (hn : next cfg x l = some x') : Polling s p callbacks n x' ∧
      ∀ y : Resource, (∀ r, y ≠ .ref r) →
        (if l.isOf p then x'.amount y - x.amount y else 0) =
          (x'.pc p).givenBack cfg (s.oldest n) y - (x.pc p).givenBack cfg (s.oldest n) y := by
  by_cases ht : l.tid? = some p
  · have hmine : l.isOf p = true := by simp [Label.isOf, ht]
    obtain ⟨c, hc, -⟩ := h.progress
    cases l with
    | call u m =>
      obtain rfl := Option.some.inj ht
      exact absurd rfl (hl m)
    | step u ans =>
      obtain rfl := Option.some.inj ht
      cases next_moves hn with
      | poll _ _ q _ hpc hm =>
        refine ⟨h.move hs hlone.matched hpc hm, fun y hy => ?_⟩
        rw [if_pos hmine]
        exact h.gives hlone.owned hpc hm hy
      | submit _ _ q _ hpc _ | blocked _ _ q _ hpc _ | close _ _ q _ hpc _ =>
        rw [hpc] at hc
        cases hc
    | _ => cases ht
  · refine ⟨h.other hlone.solo hn ht, fun y _ => ?_⟩
    rw [if_neg (by simpa [Label.isOf] using ht), next_pc_of_ne hn ht, sub_self]

/-- What a call that waits in state `s` and is answered `ans` has done when it returns `n`,
whether or not it keeps the contract. -/
structure Returned (cfg : Config) (p : Tid) (s : State Tid) (ls : List (Label Tid))
    (s' : State Tid) (callbacks : List (Option ℕ)) (max n : ℤ) (callbacks' : List (Option ℕ)) :
    Prop where
  answer : s.mayReturn max n
  available : n.toNat ≤ s.ring.length
  reaped : s'.polledOps = s.polledOps ++ (s.oldest n).map (·.op)
  array : callbacks' =
    filled ((s.oldest n).map fun e => s.callbackOf e.op) callbacks (s.oldest n).length
  errors : s'.errors = s.errors ++ (s.oldest n).flatMap s.noticeOf
  net_eq : ∀ y : Resource, (∀ r, y ≠ .ref r) →
    net (next cfg) (Label.isOf p) (·.amount y) s ls = putBacks (s.oldest n) y + releases cfg n y

theorem poll_returns (hs : LonePoller cfg p s) (hpc : s.pc p = .poll (.getEvents callbacks min max))
    (hcalls : ∀ m, .call p m ∉ ls)
    (hr : Run (next cfg) (PollsAlone p) s (.step p ans :: ls) s')
    (hend : s'.pc p = .idle (.polled n callbacks')) :
    n = ans.events ∧ Returned cfg p s (.step p ans :: ls) s' callbacks max n callbacks' := by
  cases hr with
  | @cons _ _ x _ _ hP hn hrest =>
    obtain ⟨hbegin, hzero⟩ := Polling.begin hpc hn
    have hrun := hrest.and_of_forall (R := fun l => ∀ m, l ≠ .call p m)
      fun l hl m he => hcalls m (he ▸ hl)
    have hstep : ∀ x l x', (LonePoller cfg p x ∧ Polling s p callbacks ans.events x) →
        (PollsAlone p x l ∧ ∀ m, l ≠ .call p m) → next cfg x l = some x' →
        LonePoller cfg p x' ∧ Polling s p callbacks ans.events x' := by
      intro x l x' h hl hn
      exact ⟨h.1.step hl.1 hn, (h.2.step hs.matched h.1 hl.2 hn).1⟩
    have hx : LonePoller cfg p x ∧ Polling s p callbacks ans.events x := ⟨hs.step hP hn, hbegin⟩
    have hfinal := (hrun.invariant hx hstep).2
    obtain rfl : n = ans.events := by
      have hcounts := hfinal.counts
      rwa [hend] at hcounts
    obtain ⟨c, hc, hright⟩ := hfinal.progress
    rw [hend] at hc
    obtain rfl := Option.some.inj hc
    obtain ⟨harray, herrors⟩ := hright rfl
    refine ⟨rfl, (poll_wait hpc hn).1, hfinal.available, hfinal.reaped, harray, ?_, ?_⟩
    · rwa [List.take_length] at herrors
    · intro y hy
      have hlater := hrun.net_eq (Label.isOf p) (·.amount y)
        (fun x => (x.pc p).givenBack cfg (s.oldest ans.events) y) hx
        fun x l x' h hl hn => ⟨hstep x l x' h hl hn,
          (h.2.step hs.matched h.1 hl.2 hn).2 y hy⟩
      have hgive : (s'.pc p).givenBack cfg (s.oldest ans.events) y =
          putBacks (s.oldest ans.events) y + releases cfg ans.events y := by rw [hend]; rfl
      simp only [net, hn, (hzero y).2, sub_self, ite_self, zero_add, hlater, hgive, (hzero y).1,
        sub_zero]

omit [DecidableEq Tid] in
/-- The events that have been read are of submissions, on iocbs of their own. -/
theorem LonePoller.oldest (h : LonePoller cfg p s) (n : ℤ) : ((s.oldest n).map (·.obj)).Nodup ∧
    ∀ e ∈ s.oldest n, ∃ a, s.accepted[e.op]? = some (.user a) := by
  constructor
  · have hnd := (h.owned.custody.nodup none).of_append_right
    exact hnd.sublist ((List.take_sublist _ _).map _)
  · intro e he
    obtain ⟨g, hg⟩ := h.matched.oldest he
    cases g with
    | user a => exact ⟨a, hg⟩
    | stop fd => exact absurd (List.mem_of_getElem? hg) (h.undeleted.accepted fd)

/-- **A call of `poll(callbacks, min, max)` that returns keeps its contract if and only if**
the wait has returned at least `min` events, and not an error, and the slots of the events
without a callback were `null` before. -/
theorem poll_contract_iff (hq : 0 < cfg.queueSize)
    (hreach : Reaches (next cfg) (PollsAlone p) (.initial cfg env) s)
    (hpc : s.pc p = .poll (.getEvents callbacks min max)) (hmin : 0 ≤ min) (hmax : min ≤ max)
    (hlen : max ≤ callbacks.length) (hcalls : ∀ m, .call p m ∉ ls)
    (hr : Run (next cfg) (PollsAlone p) s (.step p ans :: ls) s')
    (hend : s'.pc p = .idle (.polled n callbacks')) :
    PollContract cfg p s (.step p ans :: ls) s' callbacks min max n callbacks' ↔
      min ≤ ans.events ∧ ∀ (i : ℕ) e, (s.oldest ans.events)[i]? = some e →
        s.callbackOf e.op = none → callbacks[i]? = some none := by
  have hs : LonePoller cfg p s :=
    hreach.invariant (.initial hq env) fun _ _ _ h hl hn => h.step hl hn
  obtain ⟨rfl, hret⟩ := poll_returns hs hpc hcalls hr hend
  have hlength := length_oldest hret.available
  have hle : ans.events ≤ max := hret.answer.elim (fun hneg => by omega) And.left
  -- the array against the callbacks of the events
  have harray : (∀ (i : ℕ) e, (s.oldest ans.events)[i]? = some e →
        callbacks'[i]? = some (s.callbackOf e.op)) ↔
      ∀ (i : ℕ) e, (s.oldest ans.events)[i]? = some e →
        s.callbackOf e.op = none → callbacks[i]? = some none := by
    have hlen : ((s.oldest ans.events).map fun e => s.callbackOf e.op).length ≤
        callbacks.length := by
      rw [List.length_map]
      omega
    have hiff := filled_eq_iff hlen
    rw [List.length_map, ← hret.array] at hiff
    simpa only [List.getElem?_map, Option.map_eq_some_iff, forall_exists_index, and_imp,
      forall_apply_eq_imp_iff₂] using hiff
  obtain ⟨hnd, huser⟩ := hs.oldest ans.events
  constructor
  · exact fun h => ⟨h.bounds.1, harray.mp h.entries⟩
  · rintro ⟨hwait, hnull⟩
    refine ⟨⟨hwait, hle⟩, ⟨hret.available, hret.reaped, huser⟩, harray.mpr hnull, fun i hi => ?_,
      hret.errors, ⟨hnd, fun b => ?_⟩, ?_⟩
    · rw [hret.array]
      exact filled_of_length_le (by rw [List.length_map]; omega)
    · rw [hret.net_eq _ (fun _ => Resource.noConfusion), putBacks_iocb hnd]
      exact add_zero _
    · rw [hret.net_eq _ (fun _ => Resource.noConfusion), putBacks_permits, zero_add, releases]
      split
      · omega
      · rfl

/-- A read that has failed and a write without a callback, into a used array: the read is
told, and the array has its callback and `null`. -/
theorem poll_contract_mixed : ∃ s s' : State Bool,
    PollContract ⟨2, true, true⟩ false s (.step false { events := 2 } :: steps false 9) s'
      [some 1, none, some 3] 1 3 2 [some 7, none, some 3] := by
  obtain ⟨s, hreach, hpc, hcbs, hexec⟩ := exists_of_exec (next ⟨2, true, true⟩)
    (PollsAlone false) (.sample ⟨2, true, true⟩)
    (submits true ⟨.pread, 5, 0, 512, some 7⟩ ++ submits true ⟨.pwrite, 5, 0, 512, none⟩ ++
      [.complete 0 (-5), .complete 0 512, .call false (.pollInto [some 1, none, some 3] 1 3)])
    (fun s : State Bool => s.pc false = .poll (.getEvents [some 1, none, some 3] 1 3) ∧
      (s.oldest 2).map (fun e => s.callbackOf e.op) = [some 7, none] ∧
      (exec (next ⟨2, true, true⟩) (PollsAlone false) s
        (.step false { events := 2 } :: steps false 9)).any fun s' =>
          decide (s'.pc false = .idle (.polled 2 [some 7, none, some 3]))) (by decide)
  obtain ⟨s', hr, hend⟩ := exists_run_of_exec _ _ _ _ _ hexec
  refine ⟨s, s', (poll_contract_iff (by decide) hreach hpc (by decide) (by decide) (by decide)
    (by simp [steps]) hr hend).mpr ⟨by decide, fun i e he hnone => ?_⟩⟩
  have hi : ((s.oldest 2).map fun e => s.callbackOf e.op)[i]? = some none := by
    rw [List.getElem?_map, he, Option.map_some, hnone]
  rw [hcbs] at hi
  match i with
  | 0 => cases hi
  | 1 => rfl
  | i + 2 => cases hi

/-- A wait for one event is interrupted: the call returns `-4` events. -/
theorem poll_contract_interrupted : ∃ s s' : State Bool,
    Reaches (next ⟨1, true, true⟩) (PollsAlone false) (.sample ⟨1, true, true⟩) s ∧
    s.pc false = .poll (.getEvents [none] 1 1) ∧
    Run (next ⟨1, true, true⟩) (PollsAlone false) s
      [.step false { events := -EINTR }, .step false {}] s' ∧
    s'.pc false = .idle (.polled (-4) [none]) ∧
    ¬PollContract ⟨1, true, true⟩ false s [.step false { events := -EINTR }, .step false {}] s'
      [none] 1 1 (-4) [none] := by
  obtain ⟨s, hreach, hpc, hexec⟩ := exists_of_exec (next ⟨1, true, true⟩) (PollsAlone false)
    (.sample ⟨1, true, true⟩) [.call false (.pollInto [none] 1 1)]
    (fun s : State Bool => s.pc false = .poll (.getEvents [none] 1 1) ∧
      (exec (next ⟨1, true, true⟩) (PollsAlone false) s
        [.step false { events := -EINTR }, .step false {}]).any fun s' =>
          decide (s'.pc false = .idle (.polled (-4) [none]))) (by decide)
  obtain ⟨s', hr, hend⟩ := exists_run_of_exec _ _ _ _ _ hexec
  exact ⟨s, s', hreach, hpc, hr, hend, fun h => absurd h.bounds.1 (by decide)⟩

/-- A write without a callback completes, and the caller gets the callback of a former
call again. -/
theorem poll_contract_stale : ∃ s s' : State Bool,
    Reaches (next ⟨1, true, true⟩) (PollsAlone false) (.sample ⟨1, true, true⟩) s ∧
    (s.oldest 1).map (fun e => s.callbackOf e.op) = [none] ∧
    Run (next ⟨1, true, true⟩) (PollsAlone false) s
      (.step false { events := 1 } :: steps false 5) s' ∧
    s'.pc false = .idle (.polled 1 [some 9]) := by
  obtain ⟨s, hreach, hcbs, hexec⟩ := exists_of_exec (next ⟨1, true, true⟩) (PollsAlone false)
    (.sample ⟨1, true, true⟩) (submits true ⟨.pwrite, 5, 0, 512, none⟩ ++
      [.complete 0 512, .call false (.pollInto [some 9] 1 1)])
    (fun s : State Bool => (s.oldest 1).map (fun e => s.callbackOf e.op) = [none] ∧
      (exec (next ⟨1, true, true⟩) (PollsAlone false) s
        (.step false { events := 1 } :: steps false 5)).any fun s' =>
          decide (s'.pc false = .idle (.polled 1 [some 9]))) (by decide)
  obtain ⟨s', hr, hend⟩ := exists_run_of_exec _ _ _ _ _ hexec
  exact ⟨s, s', hreach, hcbs, hr, hend⟩

end ArtemisNative
