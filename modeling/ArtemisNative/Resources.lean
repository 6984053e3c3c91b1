/-
ArtemisNative/Resources.lean

The native resources of a context, from `newContext` to `deleteContext`.

`newContext` acquires the control block, the kernel context, the array, the iocbs, two
mutexes, the events buffer and a global reference to the Java object, and says that all
of it is given back by `deleteContext`.  Here the steps of the methods are read for what
they do with these resources (`State.usage`): through which pointers they go, and in
which order `deleteContext` releases what the pointers lead to.

The whole life of a context is then one list of uses, the construction and whatever the
threads do up to the last `free`.  If `close` has drained the context beside a poller,
there is no fault in the list (nothing is used before it is acquired or behind its
release, nothing is released twice), and when the control block has been freed nothing
is left (`context_returns_its_resources`).

That the array holds every iocb when it is freed is the one point that needs more than
the order of the steps.  With all permits taken nothing is outstanding when
`deleteContext` takes its iocb, and nobody takes one behind it; so what may be missing
in the pool is this iocb, and its stale slot is still there (`Lasting.pool`).
-/
import ArtemisNative.Closing
import ArtemisNative.NewContext
import ArtemisNative.Lifetime
import ArtemisNative.Lib.Tenure

namespace ArtemisNative

open Transition NewContext

/-! ### Resources and pointers -/

/-- The resources of a context: those `newContext` gets from the C library, and the
global reference `thisObject`.  `nowhere` is where a pointer leads that nobody has
written. -/
inductive Asset
  | native (r : Resource)
  | thisObject
  | nowhere
  deriving DecidableEq, Repr

namespace NewContext

/-- What is used when one goes through the pointer. -/
def Pointer.asset : Pointer → Asset
  | .to r => .native r
  | _ => .nowhere

/-- `free`; it does nothing with `NULL`. -/
def Pointer.freed : Pointer → List (Use Asset)
  | .null => []
  | p => [.release p.asset]

/-- The kernel context behind `theControl->ioContext`. -/
def Control.kernel (theControl : Control) : Asset :=
  match theControl.ioContext with
  | some handle => .native (.kernel handle)
  | none => .nowhere

/-- The zero context stands for none. -/
def NativeCall.uses : NativeCall → List (Use Asset)
  | .malloc r | .mutexInit r => [.acquire (.native r)]
  | .ioQueueInit handle => [.acquire (.native (.kernel handle))]
  | .ioQueueRelease none => [.release .nowhere]
  | .ioQueueRelease (some handle) =>
    if handle = 0 then [] else [.release (.native (.kernel handle))]
  | .free p => p.freed

/-- What a successful `newContext` does: its calls, and `NewGlobalRef`. -/
def construction (lib : Libaio) (env : Environment) (queueSize : ℤ) : List (Use Asset) :=
  (newContext lib env queueSize).calls.flatMap NativeCall.uses ++ [.acquire .thisObject]

end NewContext

/-! ### What a step uses -/

section Uses

variable {Tid : Type} (theControl : Control) (s : State Tid)

/-- `getIOCB` and `putIOCB`: the control block, the mutex in it and the array. -/
def poolAssets : List Asset := [.native .control, .native .iocbLock, theControl.iocbArray.asset]

/-- `pthread_mutex_lock` and `pthread_mutex_unlock` of `pollLock`. -/
def lockAssets : List Asset := [.native .control, .native .pollLock]

/-- `ringio_get_events` into `control->events`. -/
def readAssets : List Asset :=
  [.native .control, theControl.kernel, theControl.events.asset]

/-- The memory of the `b`-th iocb. -/
def iocbAsset (b : ℕ) : Asset := (theControl.iocb b).asset

/-- The event at index `i` and its iocb. -/
def eventAssets (i : ℕ) : List Asset :=
  [.native .control, theControl.events.asset, iocbAsset theControl (s.events i).obj]

def SubmitPc.touches : SubmitPc → List Asset
  | .acquire _ => []
  | .getIOCB _ | .putIOCB _ _ => poolAssets theControl
  | .prep _ b | .deleteRef b _ => [iocbAsset theControl b]
  | .ioSubmit _ b => [.native .control, theControl.kernel, iocbAsset theControl b]

/-- Behind `take` the loop works on the local `obj`, and calls into Java. -/
def Stage.touches (f : Frame) : Stage → List Asset
  | .test => if f.i < f.result then eventAssets theControl s f.i else []
  | .sync | .onError | .take => eventAssets theControl s f.i
  | .stop | .put _ => poolAssets theControl
  | .done _ => [.native .control, .thisObject]
  | .inDone _ | .release _ | .deleteRef _ | .warn => []

def BlockedPc.touches : BlockedPc → List Asset
  | .lock | .unlock _ => lockAssets
  | .getEvents _ => readAssets theControl
  | .event f st => st.touches theControl s f

def PollPc.touches : PollPc → List Asset
  | .getEvents _ _ _ => readAssets theControl
  | .event f .onError => if f.i < f.result then eventAssets theControl s f.i else []
  | .event f .store | .event f .deleteRef => eventAssets theControl s f.i
  | .event _ .put => poolAssets theControl
  | .release _ _ _ => []

/-- `deleteContext` up to `io_queue_release`. -/
def ClosePc.touches : ClosePc → List Asset
  | .getIOCB | .putIOCB _ _ => poolAssets theControl
  | .prep b => [iocbAsset theControl b]
  | .ioSubmit b => [.native .control, theControl.kernel, iocbAsset theControl b]
  | .lock | .unlock => lockAssets
  | .getEvents => readAssets theControl
  | .put i result => if i < result then theControl.events.asset :: poolAssets theControl else []
  | .tryAcquire | .queueRelease | .destroy | .free => []

def Pc.touches : Pc → List Asset
  | .idle _ => []
  | .submit q => q.touches theControl
  | .blocked q => q.touches theControl s
  | .poll q => q.touches theControl s
  | .close q => q.touches theControl

/-- `iocb_destroy`: each member through its slot, then the array. -/
def iocbDestroyUses : List (Use Asset) :=
  (s.pool.iocbDestroy.flatMap fun b =>
    [.touch (.native .control), .touch theControl.iocbArray.asset] ++
      (theControl.iocb b).freed) ++
    .touch (.native .control) :: theControl.iocbArray.freed

def Pc.uses : Pc → List (Use Asset)
  | .close .queueRelease => [.touch (.native .control), .release theControl.kernel]
  | .close .destroy =>
    [.touch (.native .control), .release (.native .pollLock),
      .touch (.native .control), .release (.native .iocbLock)] ++ iocbDestroyUses theControl s
  | .close .free =>
    [.touch (.native .control), .release .thisObject, .touch (.native .control)] ++
      theControl.events.freed ++ [.release (.native .control)]
  | q => (q.touches theControl s).map .touch

/-- What a step does with the resources of the context. -/
def State.usage : Label Tid → List (Use Asset)
  | .step t _ => (s.pc t).uses theControl s
  | _ => []

end Uses

variable {Tid : Type} [DecidableEq Tid] {cfg : Config} {s s' : State Tid} {t u p : Tid}
variable {ans : Answer} {l : Label Tid} {b : ℕ} {L : Finset Asset}
variable {lib : Libaio} {env : Environment} {c : Control} {queueSize : ℤ} {handle n : ℕ}

/-! ### The construction -/

/-- What the calls of `newContext` acquire, in their order. -/
def natives (handle n : ℕ) : List Resource :=
  [.control, .kernel handle, .array] ++ (List.range n).map .iocb ++ [.iocbLock, .pollLock, .events]

/-- Everything a context of `n` iocbs owns. -/
def assets (handle n : ℕ) : List Asset := (natives handle n).map .native ++ [.thisObject]

theorem mem_assets {a : Asset} :
    a ∈ assets handle n ↔ a = .native .control ∨ a = .native (.kernel handle) ∨
      a = .native .array ∨ (∃ b, b < n ∧ a = .native (.iocb b)) ∨ a = .native .iocbLock ∨
      a = .native .pollLock ∨ a = .native .events ∨ a = .thisObject := by
  simp only [assets, natives, List.map_append, List.mem_append, List.map_cons, List.map_nil,
    List.mem_cons, List.not_mem_nil, or_false, List.map_map, List.mem_map, List.mem_range,
    Function.comp_apply, or_assoc, eq_comm (b := a)]

theorem nodup_natives (handle n : ℕ) : (natives handle n).Nodup := by
  have hiocb : Function.Injective Resource.iocb := fun _ _ h => Resource.iocb.inj h
  have hrange : ((List.range n).map Resource.iocb).Nodup := List.nodup_range.map hiocb
  rw [natives, List.append_assoc]
  refine List.Nodup.append (by simp) (List.Nodup.append hrange (by simp) ?_) ?_
  · intro r hr hr'
    obtain ⟨b, -, rfl⟩ := List.mem_map.mp hr
    simp at hr'
  · intro r hr hr'
    simp only [List.mem_append, List.mem_map, List.mem_cons, List.not_mem_nil, or_false] at hr hr'
    rcases hr with rfl | rfl | rfl <;> simp at hr'

theorem nodup_assets (handle n : ℕ) : (assets handle n).Nodup := by
  have hnative : Function.Injective Asset.native := fun _ _ h => Asset.native.inj h
  refine ((nodup_natives handle n).map hnative).append (List.nodup_singleton _) ?_
  intro a ha ha'
  obtain ⟨r, -, rfl⟩ := List.mem_map.mp ha
  simp at ha'

/-- The pointers of a control block that has been constructed. -/
structure Built (c : Control) (handle n : ℕ) : Prop where
  kernel : c.kernel = .native (.kernel handle)
  array : c.iocbArray = .to .array
  iocb : ∀ b, b < n → c.iocb b = .to (.iocb b)
  events : c.events = .to .events

theorem uses_mallocs (i n : ℕ) :
    (mallocs i n).flatMap NativeCall.uses =
      (List.range' i n).map fun j => .acquire (.native (.iocb j)) := by
  rw [mallocs, List.flatMap_map, List.map_eq_flatMap]
  rfl

/-- A `newContext` that returns has acquired everything, once. -/
theorem construction_spec (hnew : (newContext lib env queueSize).context = some c) :
    ∃ handle, Built c handle queueSize.toNat ∧ 0 < queueSize ∧
      Use.after ∅ (construction lib env queueSize) =
        some (assets handle queueSize.toNat).toFinset := by
  by_cases hcontrol : env.control = true
  · by_cases hres : (lib.ioQueueInit queueSize none).1 = 0
    · have hpos : 0 < queueSize := by
        by_contra hle
        exact (lib.rejects queueSize none (Int.not_lt.mp hle)).1 hres
      obtain ⟨handle, hne, hctx⟩ := lib.succeeds queueSize none hpos hres
      by_cases harray : env.array = true
      · obtain ⟨k, c', hslots, harr, hioContext, -, hfail, hdone⟩ :=
          newContext_of_loop hcontrol hres hctx harray hpos
        by_cases hk : k = queueSize.toNat
        · subst hk
          have hret := hdone rfl
          split_ifs at hret with hiocbLock hpollLock hevents
          · rw [hret] at hnew
            cases hnew
          · rw [hret] at hnew
            cases hnew
          · rw [hret] at hnew
            cases hnew
          · rw [hret] at hnew
            obtain rfl := Option.some.inj hnew
            refine ⟨handle, ⟨?_, harr, hslots, rfl⟩, hpos, ?_⟩
            · simp [Control.kernel, hioContext]
            · have hcalls : construction lib env queueSize =
                  (assets handle queueSize.toNat).map .acquire := by
                simp only [construction, hret, List.flatMap_append, uses_mallocs, assets, natives,
                  List.map_append, List.map_map, List.range_eq_range', Function.comp_def]
                simp [setup, NativeCall.uses]
              rw [hcalls, Use.after_acquire (nodup_assets handle queueSize.toNat) (by simp),
                Finset.union_empty]
        · rw [hfail hk] at hnew
          cases hnew
      · rw [newContext_of_array hcontrol hres hctx (Bool.eq_false_iff.mpr harray)] at hnew
        cases hnew
    · rw [newContext_of_init hcontrol hres] at hnew
      cases hnew
  · rw [newContext_of_control lib queueSize (Bool.eq_false_iff.mpr hcontrol)] at hnew
    cases hnew

/-! ### What a step touches -/

omit [DecidableEq Tid] in
/-- The iocb of a step is one that the context has allocated. -/
theorem Owned.iocb_mem (h : Owned cfg s) (hb : Built c handle cfg.queueSize)
    (hmem : b ∈ (s.pc t).holds s.events) : iocbAsset c b ∈ assets handle cfg.queueSize := by
  have hlt := h.accounts.out_lt b (h.custody.subset (some t) b hmem)
  rw [iocbAsset, hb.iocb b hlt]
  exact mem_assets.mpr (.inr (.inr (.inr (.inl ⟨b, hlt, rfl⟩))))

omit [DecidableEq Tid] in
theorem Built.pool_mem (hb : Built c handle n) : ∀ r ∈ poolAssets c, r ∈ assets handle n := by
  simp [poolAssets, hb.array, Pointer.asset, mem_assets]

theorem lock_mem : ∀ r ∈ lockAssets, r ∈ assets handle n := by
  simp [lockAssets, mem_assets]

theorem Built.read_mem (hb : Built c handle n) : ∀ r ∈ readAssets c, r ∈ assets handle n := by
  simp [readAssets, hb.events, hb.kernel, Pointer.asset, mem_assets]

omit [DecidableEq Tid] in
/-- Everything a step touches belongs to the context. -/
theorem Owned.touches_mem (h : Owned cfg s) (hb : Built c handle cfg.queueSize) :
    ∀ r ∈ (s.pc t).touches c s, r ∈ assets handle cfg.queueSize := by
  -- the iocb of a submission, the one of the event at hand, and those of the rest of a batch
  have hsubmit : ∀ b, iocbAsset c b ∈ assets handle cfg.queueSize →
      ∀ r ∈ [Asset.native .control, c.kernel, iocbAsset c b], r ∈ assets handle cfg.queueSize := by
    intro b hmem r hr
    simp only [List.mem_cons, List.not_mem_nil, or_false] at hr
    rcases hr with rfl | rfl | rfl
    · simp [mem_assets]
    · rw [hb.kernel]
      simp [mem_assets]
    · exact hmem
  have hevent : ∀ i, iocbAsset c (s.events i).obj ∈ assets handle cfg.queueSize →
      ∀ r ∈ eventAssets c s i, r ∈ assets handle cfg.queueSize := by
    intro i hmem r hr
    simp only [eventAssets, hb.events, List.mem_cons, List.not_mem_nil, or_false] at hr
    rcases hr with rfl | rfl | rfl
    · simp [mem_assets]
    · simp [Pointer.asset, mem_assets]
    · exact hmem
  have hrest : ∀ i n, (∀ b ∈ objsFrom s.events i n, iocbAsset c b ∈ assets handle cfg.queueSize) →
      ∀ r ∈ if i < n then eventAssets c s i else [], r ∈ assets handle cfg.queueSize := by
    intro i n hall
    split
    · rename_i hlt
      refine hevent i (hall _ ?_)
      rw [objsFrom_of_lt hlt]
      exact List.mem_cons_self
    · simp
  have hheld : ∀ b, b ∈ (s.pc t).holds s.events → iocbAsset c b ∈ assets handle cfg.queueSize :=
    fun b hmem => h.iocb_mem hb hmem
  cases hpc : s.pc t with
  | idle o => simp [Pc.touches]
  | submit q =>
    rw [hpc] at hheld
    cases q with
    | acquire a => simp [Pc.touches, SubmitPc.touches]
    | getIOCB a => exact hb.pool_mem
    | putIOCB b errno => exact hb.pool_mem
    | ioSubmit a b => exact hsubmit b (hheld b (List.mem_singleton_self b))
    | prep a b | deleteRef b errno =>
      intro r hr
      obtain rfl := List.mem_singleton.mp hr
      exact hheld b (List.mem_singleton_self b)
  | blocked q =>
    rw [hpc] at hheld
    cases q with
    | lock | unlock o => exact lock_mem
    | getEvents f => exact hb.read_mem
    | event f st =>
      cases st with
      | test => exact hrest f.i f.result hheld
      | sync | onError | take => exact hevent f.i (hheld _ List.mem_cons_self)
      | stop | put obj => exact hb.pool_mem
      | done obj => simp [Pc.touches, BlockedPc.touches, Stage.touches, mem_assets]
      | inDone obj | release obj | deleteRef obj | warn =>
        simp [Pc.touches, BlockedPc.touches, Stage.touches]
  | poll q =>
    rw [hpc] at hheld
    cases q with
    | getEvents callbacks min max => exact hb.read_mem
    | release m callbacks pending => simp [Pc.touches, PollPc.touches]
    | event f st =>
      cases st with
      | onError => exact hrest f.i f.result hheld
      | store | deleteRef => exact hevent f.i (hheld _ List.mem_cons_self)
      | put => exact hb.pool_mem
  | close q =>
    rw [hpc] at hheld
    cases q with
    | getIOCB => exact hb.pool_mem
    | putIOCB b errno => exact hb.pool_mem
    | prep b =>
      intro r hr
      obtain rfl := List.mem_singleton.mp hr
      exact hheld b (List.mem_singleton_self b)
    | ioSubmit b => exact hsubmit b (hheld b (List.mem_singleton_self b))
    | lock | unlock => exact lock_mem
    | getEvents => exact hb.read_mem
    | put i result =>
      show ∀ r ∈ if i < result then c.events.asset :: poolAssets c else [], _
      split
      · rw [hb.events]
        rintro r (_ | ⟨_, hr⟩)
        · simp [Pointer.asset, mem_assets]
        · exact hb.pool_mem r hr
      · simp
    | tryAcquire | queueRelease | destroy | free => simp [Pc.touches, ClosePc.touches]

/-! ### The pool behind the sentinel -/

/-- Behind the `getIOCB` of `deleteContext`. -/
def ClosePc.hasTaken : ClosePc → Bool
  | .tryAcquire | .getIOCB => false
  | _ => true

/-- Only `getIOCB` hands out iocbs. -/
theorem next_handed (hn : next cfg s l = some s') :
    (s'.handed = s.handed ∧ s'.outstanding ⊆ s.outstanding) ∨
      ∃ t b, (s.pc t = .close .getIOCB ∨ ∃ a, s.pc t = .submit (.getIOCB a)) ∧
        s'.handed = s.handed ++ [b] ∧ s'.outstanding = insert b s.outstanding := by
  have hsame : s.handed = s.handed ∧ s.outstanding ⊆ s.outstanding := ⟨rfl, subset_rfl⟩
  have hback : ∀ b, s.handed = s.handed ∧ s.outstanding.erase b ⊆ s.outstanding := fun b =>
    ⟨rfl, Finset.erase_subset b s.outstanding⟩
  cases next_moves hn with
  | call t o m _ hpc hm => cases hm <;> exact .inl hsame
  | submit t ans q _ hpc hm =>
    cases hm with
    | gotIOCB a b pool hg => exact .inr ⟨t, b, .inr ⟨a, hpc⟩, rfl, rfl⟩
    | undone b errno => exact .inl (hback b)
    | _ => exact .inl hsame
  | blocked t ans q _ hpc hm =>
    cases hm with
    | event f st _ hm =>
      cases hm with
      | stopped | put => exact .inl (hback _)
      | _ => exact .inl hsame
    | _ => exact .inl hsame
  | poll t ans q _ hpc hm =>
    cases hm with
    | put f => exact .inl (hback _)
    | _ => exact .inl hsame
  | close t ans q _ hpc hm =>
    cases hm with
    | gotIOCB b pool hg => exact .inr ⟨t, b, .inl hpc, rfl, rfl⟩
    | undone b errno => exact .inl (hback b)
    | put i result hlt => exact .inl (hback _)
    | _ => exact .inl hsame
  | complete k res r hr _ => exact .inl hsame
  | redeliver k ev _ => exact .inl hsame
  | setForceSyscall value => exact .inl hsame
  | closeDumbHandlers => exact .inl hsame

/-- All that holds of a context that is drained and closed, beyond its requests. -/
structure Lasting [Fintype Tid] (cfg : Config) (p : Tid) (s : State Tid) : Prop where
  draining : Draining cfg p s
  cover : PermitsCover cfg s
  held : ∀ t, s.pollLock = some t → (s.pc t).locks = true ∨ s.pc t = .close .unlock
  gone : s.freed = true → (s.pc p).polls = false
  pool : ∀ t q, s.pc t = .close q → q.hasTaken = true →
    ∃ b, s.outstanding ⊆ {b} ∧ IocbPool.lastHanded s.handed 1 = [b]

section Lasting

variable [Fintype Tid]

omit [DecidableEq Tid] in
/-- With all permits taken, nothing is outstanding. -/
theorem Lasting.outstanding_eq (h : Lasting cfg p s) (hpc : s.pc t = .close .getIOCB) :
    s.outstanding = ∅ := by
  have hd : s.drained = true := h.draining.drained.past t _ hpc (by rintro ⟨⟩)
  have hheld : s.held cfg t = cfg.queueSize := by
    simp only [State.held, hpc, hd, if_true]
  have hle : s.held cfg t ≤ ∑ u, s.held cfg u :=
    Finset.single_le_sum (fun u _ => s.held_nonneg cfg u) (Finset.mem_univ t)
  have hcover := h.cover.cover
  have hun := h.cover.unreleased_nonneg
  have hused := h.draining.coherent.owned.accounts.used_eq
  apply Finset.card_eq_zero.mp
  omega

omit [DecidableEq Tid] in
/-- In a drained context no thread but the closing one is in native code, once it takes
the context apart. -/
theorem Lasting.deserted (h : Lasting cfg p s) (hd : s.drained = true)
    (hp : (s.pc p).polls = false) (hcl : (s.pc u).closes = false) :
    (∃ o, s.pc u = .idle o) ∨ ∃ a, s.pc u = .submit (.acquire a) := by
  have hcarries := (h.draining.spent.emptied hd).carries u
  cases hu : s.pc u with
  | idle o => exact .inl ⟨o, rfl⟩
  | submit q =>
    rw [hu] at hcarries
    cases q with
    | acquire a => exact .inr ⟨a, rfl⟩
    | _ => cases hcarries
  | close q =>
    rw [hu] at hcl
    cases hcl
  | blocked q | poll q =>
    have hpolls : (s.pc u).polls = true := by rw [hu]; rfl
    rw [h.draining.poller.polls u hpolls, hp] at hpolls
    cases hpolls

theorem Lasting.pool_step (h : Lasting cfg p s) (hn : next cfg s l = some s') {q : ClosePc}
    (hpc' : s'.pc t = .close q) (hq : q.hasTaken = true) :
    ∃ b, s'.outstanding ⊆ {b} ∧ IocbPool.lastHanded s'.handed 1 = [b] := by
  -- a thread that was there before: nobody else takes an iocb
  have hkept : ∀ q₀, s.pc t = .close q₀ → q₀.hasTaken = true →
      ∃ b, s'.outstanding ⊆ {b} ∧ IocbPool.lastHanded s'.handed 1 = [b] := by
    intro q₀ hpc hq₀
    rcases next_handed hn with ⟨hhanded, hout⟩ | ⟨u, b, hu | ⟨a, hu⟩, -, -⟩
    · obtain ⟨b, hb, hlast⟩ := h.pool t q₀ hpc hq₀
      rw [hhanded]
      exact ⟨b, hout.trans hb, hlast⟩
    · obtain rfl := h.draining.sole.unique u t (by rw [hu]; rfl) (by rw [hpc]; rfl)
      obtain rfl := Pc.close.inj (hu.symm.trans hpc)
      cases hq₀
    · have hd := h.draining.drained.past t q₀ hpc (by rintro rfl; cases hq₀)
      have hcarries := (h.draining.spent.emptied hd).carries u
      rw [hu] at hcarries
      cases hcarries
  by_cases hl : l.tid? = some t
  · cases next_moves hn with
    | close t ans q₀ _ hpc hm =>
      obtain rfl := Option.some.inj hl
      cases hm with
      | gotIOCB b pool hg =>
        have hout := h.outstanding_eq hpc
        refine ⟨b, ?_, ?_⟩
        · show insert b s.outstanding ⊆ {b}
          rw [hout]
          exact subset_rfl
        · show IocbPool.lastHanded (s.handed ++ [b]) 1 = [b]
          simp [IocbPool.lastHanded]
      | timedOut _ _ | drained _ _ _ | unlimited _ =>
        rw [State.pc_goto] at hpc'
        obtain rfl := Pc.close.inj hpc'
        cases hq
      | noSpace hg =>
        rw [State.pc_goto] at hpc'
        cases hpc'
      | _ => exact hkept _ hpc rfl
    | call t o m _ hpc hm =>
      obtain rfl := Option.some.inj hl
      cases hm <;> rw [State.pc_goto] at hpc' <;> cases hpc'
      cases hq
    | submit t ans q _ hpc hm =>
      obtain rfl := Option.some.inj hl
      cases hm <;> rw [State.pc_goto] at hpc' <;> cases hpc'
    | blocked t ans q _ hpc hm =>
      obtain rfl := Option.some.inj hl
      cases hm with
      | readInterrupted f _ =>
        rw [hpc] at hpc'
        cases hpc'
      | event f st _ hm => cases hm <;> rw [State.pc_goto] at hpc' <;> cases hpc'
      | _ => rw [State.pc_goto] at hpc'; cases hpc'
    | poll t ans q _ hpc hm =>
      obtain rfl := Option.some.inj hl
      cases hm <;> rw [State.pc_goto] at hpc' <;> cases hpc'
    | _ => cases hl
  · rw [next_pc_of_ne hn hl] at hpc'
    exact hkept q hpc' hq

theorem Lasting.gone_step (h : Lasting cfg p s) (hl : Drains p s l)
    (hn : next cfg s l = some s') (hfr : s'.freed = true) : (s'.pc p).polls = false := by
  rw [Bool.eq_false_iff]
  intro hp
  -- `p` would have been inside before the step
  have hwas : (s.pc p).polls = true := by
    rcases next_polls_cases hn hp with hwas | rfl | ⟨callbacks, min, max, rfl⟩
    · exact hwas
    · cases next_moves hn with
      | call t o m _ hpc hm =>
        cases hm with
        | poll hcl =>
          have hno := (h.draining.sole.fresh hcl).2.2
          rw [show s.freed = true from hfr] at hno
          cases hno
        | _ => rw [State.pc_goto] at hp; cases hp
    · exact hl.1.2.1.elim
  rcases next_close_cases hn with ⟨t, ans, q, rfl, hpc, hm⟩ | ⟨t, -, rfl⟩ | ⟨hc, -⟩
  · cases hm with
    | freed =>
      rw [h.draining.poller.alone t (by rw [hpc]; rfl)] at hwas
      cases hwas
    | _ =>
      rw [h.gone hfr] at hwas
      cases hwas
  · rw [h.gone hfr] at hwas
    cases hwas
  · rw [h.gone ((congrArg (·.2.2.2) hc).symm.trans hfr)] at hwas
    cases hwas

theorem Lasting.step (h : Lasting cfg p s) (hsem : cfg.useSemaphore = true)
    (hq : 0 < cfg.queueSize) (hl : Drains p s l) (hn : next cfg s l = some s') :
    Lasting cfg p s' where
  draining := h.draining.step hsem hl hn
  cover := by
    apply h.cover.step h.draining.sole hsem hq ?_ hn
    cases l with
    | step t ans => exact fun hpc => h.draining.drained.past t _ hpc (by rintro ⟨⟩)
    | _ => trivial
  held := pollLock_held_step h.held hn
  gone := h.gone_step hl hn
  pool := fun _ _ hpc' hq' => h.pool_step hn hpc' hq'

omit [DecidableEq Tid] in
theorem Lasting.initial (hq : 0 < cfg.queueSize) (env : Process) :
    Lasting cfg p (.initial cfg env : State Tid) where
  draining := .initial hq env
  cover := .initial env
  held := by simp [State.initial]
  gone := by simp [State.initial]
  pool := by simp [State.initial]

/-! ### What is live -/

/-- The live resources: everything until the queue is released, and nothing when the
control block has been freed. -/
inductive Live (handle n : ℕ) (s : State Tid) : Finset Asset → Prop
  | whole (hfr : s.freed = false) (hdestroy : ∀ t, s.pc t ≠ .close .destroy)
      (hfree : ∀ t, s.pc t ≠ .close .free) : Live handle n s (assets handle n).toFinset
  | noQueue (t : Tid) (hpc : s.pc t = .close .destroy) :
      Live handle n s ((assets handle n).toFinset.erase (.native (.kernel handle)))
  | noPool (t : Tid) (hpc : s.pc t = .close .free) :
      Live handle n s {.native .control, .native .events, .thisObject}
  | nothing (hfr : s.freed = true) : Live handle n s ∅

omit [DecidableEq Tid] [Fintype Tid] in
/-- What is live beside a thread that closes the context is told by where it is. -/
theorem Live.of_close {q : ClosePc} (hL : Live handle n s L) (hsole : SoleCloser s)
    (hpc : s.pc t = .close q) :
    (q = .destroy ∧ L = (assets handle n).toFinset.erase (.native (.kernel handle))) ∨
      (q = .free ∧ L = {.native .control, .native .events, .thisObject}) ∨
      (q ≠ .destroy ∧ q ≠ .free ∧ s.freed = false ∧ L = (assets handle n).toFinset) := by
  have hsame : ∀ u q', s.pc u = .close q' → q = q' := by
    intro u q' hu
    obtain rfl := hsole.unique u t (by rw [hu]; rfl) (by rw [hpc]; rfl)
    exact Pc.close.inj (hpc.symm.trans hu)
  cases hL with
  | whole hfr hdestroy hfree =>
    refine .inr (.inr ⟨?_, ?_, hfr, rfl⟩)
    · rintro rfl
      exact hdestroy t hpc
    · rintro rfl
      exact hfree t hpc
  | noQueue u hu => exact .inl ⟨hsame u _ hu, rfl⟩
  | noPool u hu => exact .inr (.inl ⟨hsame u _ hu, rfl⟩)
  | nothing hfr =>
    have hahead := hsole.ahead t q hpc
    cases q <;> simp [ClosePc.ahead, hfr] at hahead

omit [Fintype Tid] in
/-- A step of a thread outside `close` leaves the closing thread alone. -/
theorem next_quiet (hn : next cfg s l = some s')
    (hl : ∀ t, l.tid? = some t → (s.pc t).closes = false) :
    s'.freed = s.freed ∧ (∀ u q, s.pc u = .close q → s'.pc u = .close q) ∧
      ∀ u q, s'.pc u = .close q → q ≠ .tryAcquire → s.pc u = .close q := by
  have hforth : ∀ u q, s.pc u = .close q → s'.pc u = .close q := by
    intro u q hu
    rw [next_pc_of_ne hn fun ht => ?_, hu]
    have hno := hl u ht
    rw [hu] at hno
    cases hno
  rcases next_close_cases hn with ⟨t, ans, q, rfl, hpc, -⟩ | ⟨t, -, rfl⟩ | ⟨hc, hpcs⟩
  · have hno := hl t rfl
    rw [hpc] at hno
    cases hno
  · refine ⟨rfl, hforth, fun u q hu hne => ?_⟩
    have hpcs : ({ s with closed := true }.goto t (.close .tryAcquire)).pc =
        Function.update s.pc t (.close .tryAcquire) := rfl
    rcases pc_cases hpcs u with ⟨-, he⟩ | ⟨-, he⟩ <;> rw [he] at hu
    · exact absurd (Pc.close.inj hu).symm hne
    · exact hu
  · exact ⟨congrArg (·.2.2.2) hc, hforth, fun u q hu _ => by rw [← hpcs u (by rw [hu]; rfl), hu]⟩

omit [DecidableEq Tid] [Fintype Tid] in
theorem Live.quiet (hL : Live handle n s L) (hfr : s'.freed = s.freed)
    (hforth : ∀ u q, s.pc u = .close q → s'.pc u = .close q)
    (hback : ∀ u q, s'.pc u = .close q → q ≠ .tryAcquire → s.pc u = .close q) :
    Live handle n s' L := by
  cases hL with
  | whole hno hdestroy hfree =>
    refine .whole (hfr.trans hno) (fun u hu => ?_) fun u hu => ?_
    · exact hdestroy u (hback u _ hu (by rintro ⟨⟩))
    · exact hfree u (hback u _ hu (by rintro ⟨⟩))
  | noQueue u hu => exact .noQueue u (hforth u _ hu)
  | noPool u hu => exact .noPool u (hforth u _ hu)
  | nothing hfreed => exact .nothing (hfr.trans hfreed)

omit [DecidableEq Tid] in
/-- The step of a thread outside `close`: everything is live, or it touches nothing. -/
theorem Lasting.live_quiet (h : Lasting cfg p s) (hb : Built c handle cfg.queueSize)
    (hL : Live handle cfg.queueSize s L) (hcl : (s.pc t).closes = false) :
    Use.after L ((s.pc t).uses c s) = some L := by
  have huses : (s.pc t).uses c s = ((s.pc t).touches c s).map .touch := by
    cases hpc : s.pc t with
    | close q =>
      rw [hpc] at hcl
      cases hcl
    | _ => rfl
  rw [huses]
  -- behind `io_queue_release` nobody else is in native code
  have hnothing : s.drained = true → (s.pc p).polls = false → (s.pc t).touches c s = [] := by
    intro hd hp
    rcases h.deserted hd hp hcl with ⟨o, hpc⟩ | ⟨a, hpc⟩ <;> rw [hpc] <;> rfl
  cases hL with
  | whole _ _ _ =>
    apply Use.after_touch
    exact fun r hr => List.mem_toFinset.mpr (h.draining.coherent.owned.touches_mem hb r hr)
  | noQueue u hu =>
    rw [hnothing (h.draining.drained.past u _ hu (by rintro ⟨⟩))
      (h.draining.poller.alone u (by rw [hu]; rfl))]
    rfl
  | noPool u hu =>
    rw [hnothing (h.draining.drained.past u _ hu (by rintro ⟨⟩))
      (h.draining.poller.alone u (by rw [hu]; rfl))]
    rfl
  | nothing hfr =>
    rw [hnothing (h.draining.drained.freed hfr) (h.gone hfr)]
    rfl

omit [DecidableEq Tid] in
/-- When the pool is destroyed its array holds every iocb. -/
theorem Lasting.pool_perm (h : Lasting cfg p s) (hpc : s.pc t = .close .destroy) :
    s.pool.iocbDestroy.Perm (List.range cfg.queueSize) := by
  obtain ⟨b, hout, hlast⟩ := h.pool t _ hpc rfl
  apply h.draining.coherent.owned.accounts.iocbDestroy_perm_iff.mpr
  intro d hd
  obtain rfl := Finset.mem_singleton.mp (hout hd)
  have hcard : s.outstanding.card = 1 := by
    rw [Finset.subset_singleton_iff.mp hout |>.resolve_left (Finset.ne_empty_of_mem hd)]
    exact Finset.card_singleton d
  rw [hcard, hlast]
  exact List.mem_singleton_self d

omit [DecidableEq Tid] [Fintype Tid] in
/-- The slots of the array, one after the other. -/
theorem iocbDestroyUses_eq (hb : Built c handle n) (hlt : ∀ b ∈ s.pool.iocbDestroy, b < n) :
    iocbDestroyUses c s =
      ((s.pool.iocbDestroy.map fun b => Asset.native (.iocb b)).flatMap fun r =>
        [Asset.native .control, .native .array].map .touch ++ [.release r]) ++
        [.touch (.native .control), .release (.native .array)] := by
  rw [iocbDestroyUses, List.flatMap_map, hb.array]
  congr 1
  refine List.flatMap_congr fun b hmem => ?_
  rw [hb.iocb b (hlt b hmem)]
  rfl

omit [DecidableEq Tid] in
theorem Lasting.after_destroy (h : Lasting cfg p s) (hb : Built c handle cfg.queueSize)
    (hpc : s.pc t = .close .destroy) :
    Use.after ((assets handle cfg.queueSize).toFinset.erase (.native (.kernel handle)))
        ((Pc.close .destroy).uses c s) =
      some {.native .control, .native .events, .thisObject} := by
  have hperm := h.pool_perm hpc
  have hmem : ∀ b, b ∈ s.pool.iocbDestroy ↔ b < cfg.queueSize := fun b => by
    rw [hperm.mem_iff, List.mem_range]
  have hnodup : (s.pool.iocbDestroy.map fun b => Asset.native (.iocb b)).Nodup := by
    refine (hperm.nodup_iff.mpr List.nodup_range).map fun b d hbd => ?_
    exact Resource.iocb.inj (Asset.native.inj hbd)
  -- the two mutexes
  have hlocks : Use.after
      ((assets handle cfg.queueSize).toFinset.erase (.native (.kernel handle)))
      [.touch (.native .control), .release (.native .pollLock), .touch (.native .control),
        .release (.native .iocbLock)] =
      some ((((assets handle cfg.queueSize).toFinset.erase (.native (.kernel handle))).erase
        (.native .pollLock)).erase (.native .iocbLock)) := by
    simp [Use.behind, Use.after, mem_assets]
  show Use.after _ ([.touch (.native .control), .release (.native .pollLock),
    .touch (.native .control), .release (.native .iocbLock)] ++ iocbDestroyUses c s) = _
  rw [iocbDestroyUses_eq hb fun b hb' => (hmem b).mp hb']
  apply Use.after_trans hlocks
  -- the members, then the array
  apply Use.after_trans (Use.after_release hnodup (fun r hr => ?_) fun r hr => ?_)
  · have harray : Asset.native .array ∈
        ((((assets handle cfg.queueSize).toFinset.erase (.native (.kernel handle))).erase
          (.native .pollLock)).erase (.native .iocbLock)) \
          (s.pool.iocbDestroy.map fun b => Asset.native (.iocb b)).toFinset := by
      simp [mem_assets]
    have hcontrol : Asset.native .control ∈
        ((((assets handle cfg.queueSize).toFinset.erase (.native (.kernel handle))).erase
          (.native .pollLock)).erase (.native .iocbLock)) \
          (s.pool.iocbDestroy.map fun b => Asset.native (.iocb b)).toFinset := by
      simp [mem_assets]
    rw [Use.after_cons, Use.behind, if_pos hcontrol, Option.bind_some, Use.after_cons, Use.behind,
      if_pos harray, Option.bind_some, Use.after]
    congr 1
    ext a
    simp only [Finset.mem_erase, Finset.mem_sdiff, List.mem_toFinset, mem_assets, List.mem_map,
      hmem, Finset.mem_insert, Finset.mem_singleton]
    constructor
    · rintro ⟨harr, ⟨hiocb, hpoll, hkernel, hall⟩, hmembers⟩
      rcases hall with rfl | rfl | rfl | ⟨b, hlt, rfl⟩ | rfl | rfl | rfl | rfl
      · exact .inl rfl
      · exact absurd rfl hkernel
      · exact absurd rfl harr
      · exact absurd ⟨b, hlt, rfl⟩ hmembers
      · exact absurd rfl hiocb
      · exact absurd rfl hpoll
      · exact .inr (.inl rfl)
      · exact .inr (.inr rfl)
    · rintro (rfl | rfl | rfl) <;> simp
  · obtain ⟨b, hlt, rfl⟩ := List.mem_map.mp hr
    simpa [mem_assets] using (hmem b).mp hlt
  · simp only [List.mem_cons, List.not_mem_nil, or_false] at hr
    rcases hr with rfl | rfl <;> simp [mem_assets]

omit [DecidableEq Tid] [Fintype Tid] in
theorem after_free (hb : Built c handle n) :
    Use.after {.native .control, .native .events, .thisObject} ((Pc.close .free).uses c s) =
      some ∅ := by
  have huses : (Pc.close .free).uses c s =
      [.touch (.native .control), .release .thisObject, .touch (.native .control),
        .release (.native .events), .release (.native .control)] := by
    simp [Pc.uses, hb.events, Pointer.freed, Pointer.asset]
  rw [huses]
  decide

/-- The step of the thread that closes the context. -/
theorem Lasting.live_close {q : ClosePc} (h : Lasting cfg p s) (hb : Built c handle cfg.queueSize)
    (hL : Live handle cfg.queueSize s L) (hpc : s.pc t = .close q)
    (hm : CloseMoves cfg s t ans q s') :
    ∃ L', Use.after L ((Pc.close q).uses c s) = some L' ∧ Live handle cfg.queueSize s' L' := by
  have hsole := h.draining.sole
  rcases hL.of_close hsole hpc with ⟨rfl, rfl⟩ | ⟨rfl, rfl⟩ | ⟨hdestroy, hfree, hfr, rfl⟩
  · cases hm with
    | destroyed => exact ⟨_, h.after_destroy hb hpc, .noPool t (State.pc_goto ..)⟩
  · cases hm with
    | freed => exact ⟨∅, after_free hb, .nothing rfl⟩
  · -- nobody else is inside `close`, so the rest is live as long as it goes on before
    have hwhole : ∀ {s₁ : State Tid} {r : Pc}, s₁.pc = Function.update s.pc t r →
        s₁.freed = s.freed → r ≠ .close .destroy → r ≠ .close .free →
        Live handle cfg.queueSize s₁ (assets handle cfg.queueSize).toFinset := by
      intro s₁ r hpc₁ hfr₁ hrd hrf
      have hno : ∀ u q', s₁.pc u = .close q' → Pc.close q' ≠ r → q' = q := by
        intro u q' hu hne
        rcases pc_cases hpc₁ u with ⟨-, he⟩ | ⟨-, he⟩ <;> rw [he] at hu
        · exact absurd hu.symm hne
        · obtain rfl := hsole.unique u t (by rw [hu]; rfl) (by rw [hpc]; rfl)
          exact Pc.close.inj (hu.symm.trans hpc)
      refine .whole (hfr₁.trans hfr) (fun u hu => ?_) fun u hu => ?_
      · exact hdestroy (hno u _ hu hrd.symm).symm
      · exact hfree (hno u _ hu hrf.symm).symm
    have htouch : Use.after (assets handle cfg.queueSize).toFinset
        (((Pc.close q).touches c s).map .touch) =
          some (assets handle cfg.queueSize).toFinset := by
      apply Use.after_touch
      intro r hr
      rw [← hpc] at hr
      exact List.mem_toFinset.mpr (h.draining.coherent.owned.touches_mem hb r hr)
    cases hm with
    | queueReleased =>
      refine ⟨_, ?_, .noQueue t (State.pc_goto ..)⟩
      simp [Pc.uses, hb.kernel, Use.after, Use.behind, mem_assets]
    | destroyed => exact absurd rfl hdestroy
    | freed => exact absurd rfl hfree
    | _ => exact ⟨_, htouch, hwhole rfl rfl (by rintro ⟨⟩) (by rintro ⟨⟩)⟩

/-- **One step**: it uses what is live, and what is live behind it is told by where the
closing thread is then. -/
theorem Lasting.live_step (h : Lasting cfg p s) (hb : Built c handle cfg.queueSize)
    (hL : Live handle cfg.queueSize s L) (hn : next cfg s l = some s') :
    ∃ L', Use.after L (s.usage c l) = some L' ∧ Live handle cfg.queueSize s' L' := by
  have hquiet : (∀ t, l.tid? = some t → (s.pc t).closes = false) →
      Use.after L (s.usage c l) = some L →
      ∃ L', Use.after L (s.usage c l) = some L' ∧ Live handle cfg.queueSize s' L' := by
    intro hcl hafter
    obtain ⟨hfr, hforth, hback⟩ := next_quiet hn hcl
    exact ⟨L, hafter, hL.quiet hfr hforth hback⟩
  cases next_moves hn with
  | close t ans q _ hpc hm =>
    show ∃ L', Use.after L ((s.pc t).uses c s) = some L' ∧ _
    rw [hpc]
    exact h.live_close hb hL hpc hm
  | call t o m _ hpc hm =>
    refine hquiet (fun u hu => ?_) rfl
    obtain rfl := Option.some.inj hu
    rw [hpc]
    rfl
  | submit t ans q _ hpc _ | blocked t ans q _ hpc _ | poll t ans q _ hpc _ =>
    have hcl : (s.pc t).closes = false := by rw [hpc]; rfl
    refine hquiet (fun u hu => ?_) (h.live_quiet hb hL hcl)
    obtain rfl := Option.some.inj hu
    exact hcl
  | complete k res r _ _ => exact hquiet (by rintro t ⟨⟩) rfl
  | redeliver k ev _ => exact hquiet (by rintro t ⟨⟩) rfl
  | setForceSyscall value => exact hquiet (by rintro t ⟨⟩) rfl
  | closeDumbHandlers => exact hquiet (by rintro t ⟨⟩) rfl

/-! ### The main result -/

omit [DecidableEq Tid] in
/-- Who destroys `pollLock` does so when nobody holds it. -/
theorem Lasting.lock_free (h : Lasting cfg p s) (hpc : s.pc t = .close .destroy) :
    s.pollLock = none := by
  rw [Option.eq_none_iff_forall_ne_some]
  intro u hu
  rcases h.held u hu with hlocks | hcl
  · have hpolls := Pc.polls_of_locks hlocks
    rw [h.draining.poller.polls u hpolls, h.draining.poller.alone t (by rw [hpc]; rfl)] at hpolls
    cases hpolls
  · obtain rfl := h.draining.sole.unique u t (by rw [hcl]; rfl) (by rw [hpc]; rfl)
    rw [hcl] at hpc
    cases hpc

/-- All that is done with the resources of a context, from its construction up to the end
of a run. -/
def lifetime (lib : Libaio) (env : Environment) (queueSize : ℤ) (c : Control) (cfg : Config)
    (process : Process) (ls : List (Label Tid)) : List (Use Asset) :=
  construction lib env queueSize ++
    emitted (next cfg) (State.usage c) (.initial cfg process) ls

/-- **A context gives back what it has acquired.**  From `newContext` on, as long as the
context is drained when it is closed: whatever the threads do is done with resources
that are live, and nothing is acquired or released twice; all of them are live until
the queue is released, and when the control block is freed none is, each having been
released as often as acquired.  The mutex of the poller is destroyed when nobody holds
it. -/
theorem context_returns_its_resources {process : Process} {ls : List (Label Tid)}
    (hnew : (newContext lib env queueSize).context = some c)
    (hsize : cfg.queueSize = queueSize.toNat) (hsem : cfg.useSemaphore = true)
    (hr : Run (next cfg) (Drains p) (.initial cfg process) ls s) :
    ∃ handle L, Use.after ∅ (lifetime lib env queueSize c cfg process ls) = some L ∧
      (s.freed = false → (∀ t, s.pc t ≠ .close .destroy ∧ s.pc t ≠ .close .free) →
        L = (assets handle cfg.queueSize).toFinset) ∧
      (s.freed = true → L = ∅ ∧ ∀ r,
        (lifetime lib env queueSize c cfg process ls).count (.release r) =
          (lifetime lib env queueSize c cfg process ls).count (.acquire r)) ∧
      ∀ t, s.pc t = .close .destroy → s.pollLock = none := by
  obtain ⟨handle, hb, hpos, hafter⟩ := construction_spec hnew
  rw [← hsize] at hb hafter
  have hq : 0 < cfg.queueSize := by omega
  have hlive : Live handle cfg.queueSize (.initial cfg process : State Tid)
      (assets handle cfg.queueSize).toFinset := by
    refine .whole rfl (fun t ht => ?_) fun t ht => ?_ <;> cases ht
  -- along the run, the live resources are told by where the closing thread is
  obtain ⟨L, hL, hend⟩ := hr.tenure
    (I := fun s L => Lasting cfg p s ∧ Live handle cfg.queueSize s L) (State.usage c)
    ⟨.initial hq process, hlive⟩ fun s l s' L hI hl hn => by
      obtain ⟨L', hL', hlive'⟩ := hI.1.live_step hb hI.2 hn
      exact ⟨L', hL', hI.1.step hsem hq hl hn, hlive'⟩
  have hall : Use.after ∅ (lifetime lib env queueSize c cfg process ls) = some L :=
    Use.after_trans hafter hL
  refine ⟨handle, L, hall, fun hfr hno => ?_, fun hfr => ?_, fun t ht => hend.1.lock_free ht⟩
  · cases hend.2 with
    | whole _ _ _ => rfl
    | noQueue u hu => exact absurd hu (hno u).1
    | noPool u hu => exact absurd hu (hno u).2
    | nothing hfr' =>
      rw [hfr] at hfr'
      cases hfr'
  · -- with the control block freed, nobody is left inside `close`
    have hempty : L = ∅ := by
      cases hend.2 with
      | whole hfr' _ _ =>
        rw [hfr] at hfr'
        cases hfr'
      | noQueue u hu | noPool u hu =>
        have hahead := hend.1.draining.sole.ahead u _ hu
        simp [ClosePc.ahead, hfr] at hahead
      | nothing _ => rfl
    subst hempty
    refine ⟨rfl, fun r => ?_⟩
    have hbalance := Use.after_balance hall r
    omega

/-- A write, then the close beside the poller, to its end. -/
theorem context_returns_its_resources_drained : ∃ (c : Control) (s : State Bool),
    (newContext (.limited 65536) {} 2).context = some c ∧
      Run (next ⟨2, true, true⟩) (Drains true) (.sample ⟨2, true, true⟩)
        (drainedClose ++ steps false 3) s ∧ s.freed = true ∧
      Use.after ∅ (lifetime (.limited 65536) {} 2 c ⟨2, true, true⟩
        ⟨fun _ => ⟨.pread, 0, 0, 0, .null⟩, fun _ => ⟨0, 0, 0⟩, .empty, false, 3⟩
        (drainedClose ++ steps false 3)) = some ∅ := by
  obtain ⟨c, hc⟩ : ∃ c, (newContext (.limited 65536) {} 2).context = some c := ⟨_, rfl⟩
  obtain ⟨s, hr, hfr⟩ := exists_run_of_exec (next ⟨2, true, true⟩) (Drains true)
    (.sample ⟨2, true, true⟩) (drainedClose ++ steps false 3)
    (fun s : State Bool => s.freed = true) (by decide)
  obtain ⟨handle, L, hall, -, hend, -⟩ := context_returns_its_resources hc rfl rfl hr
  obtain ⟨rfl, -⟩ := hend hfr
  exact ⟨c, s, hc, hr, hfr, hall⟩

end Lasting

end ArtemisNative
