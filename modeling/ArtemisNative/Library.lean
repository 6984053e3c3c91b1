/-
ArtemisNative/Library.lean

All contexts of a process.

The contexts share the static fields of the Java class (`contexts`,
`totalMaxIO`, `shuttingDown`), the global variables of the native library
(`forceSysCall`, `dumbWriteHandler`, the stop file behind it) and the
descriptors of the process.  A `Library` keeps these once, and one `Instance` for
each context that `newContext` has made.  A thread is outside the class, at one
of the steps of the constructor, of `close` or of `checkShutdown` that work on
what is shared, or `inside` a method of one context; then its program counter is
the one of that context, and `next` moves it.

    new LibaioContext   increment, newContext, addTotal
    close               (tryAcquire) subTotal (deleteContext) decrement, checkShutdown
    checkShutdown       readContexts, readFlag, shutdownHook

A context is read with the current values of the shared variables (`view`), so
that every context is a run of its own system (`Library.reaches_view`): what is
proved of one context holds of each context here.

Each context keeps the table of global references for itself, since it uses no
others than those it made.  It keeps its memory for itself, too, and for ever: in
the program a later `newContext` may get what `deleteContext` has freed.  What a
step on a freed context does to that one is not modelled.
-/
import ArtemisNative.Threads
import ArtemisNative.Lib.Slots

namespace ArtemisNative

open Transition

variable {Tid : Type}

/-! ### The shared state -/

/-- What a descriptor of the process stands for. -/
inductive OpenFile
  | stopFile
  | other (n : ℕ)
  deriving DecidableEq, Repr

/-- The arguments of the constructor of `LibaioContext`, as Java passes them. -/
structure Construction where
  queueSize : ℤ
  useSemaphore : Bool
  useFdatasync : Bool
  deriving DecidableEq, Repr

def Construction.config (a : Construction) : Config :=
  ⟨a.queueSize.toNat, a.useSemaphore, a.useFdatasync⟩

/-- A context that `newContext` has made; other threads have it once its
constructor has returned.  `deleteThrew` and `frees` are histories: how often
`deleteContext` has thrown, and how often it has freed the native context. -/
structure Instance (Tid : Type) where
  cfg : Config
  state : State Tid
  constructed : Bool
  deleteThrew : ℕ
  frees : ℕ

/-- Has `deleteContext` thrown, when a thread has gone from `p` to `q`? -/
def Pc.deleteThrew (p q : Pc) : Bool :=
  match p, q with
  | .close _, .idle (.threw _) => true
  | _, _ => false

/-- The context when thread `t` has moved on to the state `s`. -/
def Instance.moved (o : Instance Tid) (t : Tid) (s : State Tid) : Instance Tid :=
  { o with
    state := s
    deleteThrew := o.deleteThrew + if (o.state.pc t).deleteThrew (s.pc t) then 1 else 0
    frees := o.frees + if o.state.pc t = .close .free then 1 else 0 }

/-- Where a thread is.  `outside` is outside all methods of the class. -/
inductive LibPc
  | outside
  | increment (a : Construction)
  | newContext (a : Construction)
  | addTotal (c : ℕ)
  | inside (c : ℕ)
  | subTotal (c : ℕ)
  | decrement
  | setFlag
  | readContexts
  | readFlag
  | shutdownHook
  deriving DecidableEq, Repr

structure Library (Tid : Type) where
  /-- static fields of `LibaioContext` -/
  contexts : ℤ
  totalMaxIO : ℤ
  shuttingDown : Bool
  /-- global variables of the native library; `dumbPath` says whether the path
  still leads to the stop file -/
  forceSysCall : Bool
  dumbWriteHandler : ℤ
  dumbPath : Bool
  /-- the descriptors of the process -/
  files : Slots OpenFile
  objects : List (Instance Tid)
  pc : Tid → LibPc
  /-- history: calls of `newContext` that threw -/
  newThrew : ℕ
  /-- history: calls of `shutdownHook` and of `closeDumbHandlers`, and the
  descriptors that the latter passed to `close`, with what they stood for -/
  hooks : ℕ
  cleanups : ℕ
  closes : List (ℤ × Option OpenFile)

namespace Library

/-- A successful `JNI_OnLoad` in a process with the descriptors `files`: `mkstemp`
creates the stop file.  Where that fails the library is not loaded at all. -/
def JNI_OnLoad (files : Slots OpenFile) : Library Tid where
  contexts := 0
  totalMaxIO := 0
  shuttingDown := false
  forceSysCall := false
  dumbWriteHandler := files.lowest
  dumbPath := true
  files := files.insert .stopFile
  objects := []
  pc := fun _ => .outside
  newThrew := 0
  hooks := 0
  cleanups := 0
  closes := []

/-- What the descriptor `fd` stands for; `none` where it is not open. -/
def fileOf (L : Library Tid) (fd : ℤ) : Option OpenFile :=
  if 0 ≤ fd then L.files.get fd.toNat else none

/-- `close(2)`; it fails where the descriptor is not open. -/
def closeFd (L : Library Tid) (fd : ℤ) : Library Tid :=
  { L with files := if 0 ≤ fd then L.files.remove fd.toNat else L.files }

def closeDumbHandlers (L : Library Tid) : Library Tid :=
  let L := { L with cleanups := L.cleanups + 1 }
  if L.dumbWriteHandler ≠ 0 then
    let L := { L with dumbWriteHandler := 0 }
    let fd := L.dumbWriteHandler
    { L.closeFd fd with closes := L.closes ++ [(fd, L.fileOf fd)], dumbPath := false }
  else
    L

/-- The context `o`, with the current values of the shared variables. -/
def view (L : Library Tid) (o : Instance Tid) : State Tid :=
  { o.state with forceSysCall := L.forceSysCall, dumbWriteHandler := L.dumbWriteHandler }

/-- The context `c` goes on to be `o`. -/
def put (L : Library Tid) (c : ℕ) (o : Instance Tid) : Library Tid :=
  { L with objects := L.objects.set c o, forceSysCall := o.state.forceSysCall }

/-- `newContext` has made a context in the memory `env`. -/
def create (L : Library Tid) (cfg : Config) (env : Process) : Library Tid :=
  { L with
    objects := L.objects ++ [⟨cfg, .initial cfg
      { env with forceSysCall := L.forceSysCall, dumbWriteHandler := L.dumbWriteHandler }, false, 0, 0⟩] }

variable {L : Library Tid}

/-- `closeDumbHandlers` does not touch the contexts, their counters or the
threads. -/
theorem closeDumbHandlers_frame (L : Library Tid) :
    L.closeDumbHandlers = { L with
      dumbWriteHandler := 0
      dumbPath := L.closeDumbHandlers.dumbPath
      files := L.closeDumbHandlers.files
      cleanups := L.cleanups + 1
      closes := L.closeDumbHandlers.closes } := by
  simp only [closeDumbHandlers]
  split
  · rfl
  · rename_i h
    simp only [not_not] at h
    rw [← h]

@[simp] theorem closeDumbHandlers_objects : L.closeDumbHandlers.objects = L.objects := by
  rw [closeDumbHandlers_frame]

@[simp] theorem closeDumbHandlers_forceSysCall :
    L.closeDumbHandlers.forceSysCall = L.forceSysCall := by
  rw [closeDumbHandlers_frame]

@[simp] theorem closeDumbHandlers_pc : L.closeDumbHandlers.pc = L.pc := by
  rw [closeDumbHandlers_frame]

/-- Whatever it was, the marker is `0` afterwards. -/
@[simp] theorem closeDumbHandlers_dumbWriteHandler : L.closeDumbHandlers.dumbWriteHandler = 0 := by
  rw [closeDumbHandlers_frame]

variable [DecidableEq Tid]

def goto (L : Library Tid) (t : Tid) (p : LibPc) : Library Tid :=
  { L with pc := Function.update L.pc t p }

/-- The step `l` of the context `c`. -/
def within (L : Library Tid) (c : ℕ) (l : Label Tid) : Option (Instance Tid × State Tid) :=
  match L.objects[c]? with
  | none => none
  | some o => (next o.cfg (L.view o) l).map fun s => (o, s)

/-- Where a thread is when the method of context `c` it is in has gone from `p`
to `q`: the Java method `close` touches what is shared before and after
`deleteContext`. -/
def after (c : ℕ) (p q : Pc) : LibPc :=
  match p, q with
  | .close .tryAcquire, .close .getIOCB => .subTotal c
  | .close .free, .idle _ => .decrement
  | _, .idle _ => .outside
  | _, _ => .inside c

/-- Thread `t` has moved in context `c`, from where it is in `o` to where it is
in `s`. -/
def moved (L : Library Tid) (t : Tid) (c : ℕ) (o : Instance Tid) (s : State Tid) : Library Tid :=
  (L.put c (o.moved t s)).goto t (after c (o.state.pc t) (s.pc t))

end Library

/-! ### The system -/

/-- What happens in the process.  `newContext` answers that native call, with
the memory of the new context or with an exception. -/
inductive Act (Tid : Type)
  | construct (t : Tid) (a : Construction)
  | newContext (t : Tid) (env : Option Process)
  | call (t : Tid) (c : ℕ) (m : Method)
  | shutdown (t : Tid)
  | step (t : Tid) (ans : Answer)
  | complete (c k : ℕ) (res : ℤ)
  | redeliver (c k : ℕ)
  | setForceSyscall (value : Bool)
  | unload (attached : Bool)
  | openFile (n : ℕ)
  | closeFile (fd : ℤ)

/-- The thread an act moves. -/
def Act.tid? : Act Tid → Option Tid
  | .construct t _ | .newContext t _ | .call t _ _ | .shutdown t | .step t _ => some t
  | _ => none

namespace Library

variable [DecidableEq Tid]

/-- The step of thread `t` from position `p`. -/
def threadStep (L : Library Tid) (t : Tid) (ans : Answer) : LibPc → Option (Library Tid)
  | .outside => none
  | .increment a => some ({ L with contexts := L.contexts + 1 }.goto t (.newContext a))
  | .newContext _ => none
  | .addTotal c =>
    match L.objects[c]? with
    | none => none
    | some o =>
      some ({ L with
        totalMaxIO := L.totalMaxIO + o.cfg.queueSize
        objects := L.objects.set c { o with constructed := true } }.goto t .outside)
  | .inside c => (L.within c (.step t ans)).map fun os => L.moved t c os.1 os.2
  | .subTotal c =>
    match L.objects[c]? with
    | none => none
    | some o =>
      some ({ L with totalMaxIO := L.totalMaxIO - o.cfg.queueSize }.goto t (.inside c))
  | .decrement => some ({ L with contexts := L.contexts - 1 }.goto t .readContexts)
  | .setFlag => some ({ L with shuttingDown := true }.goto t .readContexts)
  | .readContexts => some (L.goto t (if L.contexts = 0 then .readFlag else .outside))
  | .readFlag => some (L.goto t (if L.shuttingDown then .shutdownHook else .outside))
  | .shutdownHook => some ({ L.closeDumbHandlers with hooks := L.hooks + 1 }.goto t .outside)

/-- `newContext` throws, or it makes a context; `io_queue_init` takes positive
sizes only. -/
def newContextStep (L : Library Tid) (t : Tid) (a : Construction) :
    Option Process → Option (Library Tid)
  | none => some ({ L with newThrew := L.newThrew + 1 }.goto t .outside)
  | some env =>
    if 0 < a.queueSize then
      some ((L.create a.config env).goto t (.addTotal L.objects.length))
    else
      none

/-- Thread `t` calls a method of a constructed context. -/
def callStep (L : Library Tid) (t : Tid) (c : ℕ) (m : Method) : Option (Library Tid) :=
  match L.within c (.call t m) with
  | none => none
  | some (o, s) => if o.constructed then some (L.moved t c o s) else none

def next (L : Library Tid) : Act Tid → Option (Library Tid)
  | .construct t a => if L.pc t = .outside then some (L.goto t (.increment a)) else none
  | .newContext t env =>
    match L.pc t with
    | .newContext a => L.newContextStep t a env
    | _ => none
  | .call t c m => if L.pc t = .outside then L.callStep t c m else none
  | .shutdown t => if L.pc t = .outside then some (L.goto t .setFlag) else none
  | .step t ans => L.threadStep t ans (L.pc t)
  | .complete c k res => (L.within c (.complete k res)).map fun os => L.put c { os.1 with state := os.2 }
  | .redeliver c k => (L.within c (.redeliver k)).map fun os => L.put c { os.1 with state := os.2 }
  | .setForceSyscall value => some { L with forceSysCall := value }
  | .unload attached => some (if attached then L.closeDumbHandlers else L)
  | .openFile n => some { L with files := L.files.insert (.other n) }
  | .closeFile fd => some (L.closeFd fd)

end Library

/-! ### What an act can do -/

namespace Library

variable [DecidableEq Tid]

inductive Moves (L : Library Tid) : Act Tid → Library Tid → Prop
  | construct (t a) (ht : L.pc t = .outside) : Moves L (.construct t a) (L.goto t (.increment a))
  | newThrew (t a) (ht : L.pc t = .newContext a) :
      Moves L (.newContext t none) ({ L with newThrew := L.newThrew + 1 }.goto t .outside)
  | created (t a env) (ht : L.pc t = .newContext a) (hpos : 0 < a.queueSize) :
      Moves L (.newContext t (some env))
        ((L.create a.config env).goto t (.addTotal L.objects.length))
  | called (t c m o s) (ht : L.pc t = .outside) (ho : L.objects[c]? = some o)
      (hcon : o.constructed = true) (hn : ArtemisNative.next o.cfg (L.view o) (.call t m) = some s) :
      Moves L (.call t c m) (L.moved t c o s)
  | shutdown (t) (ht : L.pc t = .outside) : Moves L (.shutdown t) (L.goto t .setFlag)
  | increment (t ans a) (ht : L.pc t = .increment a) :
      Moves L (.step t ans) ({ L with contexts := L.contexts + 1 }.goto t (.newContext a))
  | addTotal (t ans c o) (ht : L.pc t = .addTotal c) (ho : L.objects[c]? = some o) :
      Moves L (.step t ans) ({ L with
        totalMaxIO := L.totalMaxIO + o.cfg.queueSize
        objects := L.objects.set c { o with constructed := true } }.goto t .outside)
  | inside (t ans c o s) (ht : L.pc t = .inside c) (ho : L.objects[c]? = some o)
      (hn : ArtemisNative.next o.cfg (L.view o) (.step t ans) = some s) :
      Moves L (.step t ans) (L.moved t c o s)
  | subTotal (t ans c o) (ht : L.pc t = .subTotal c) (ho : L.objects[c]? = some o) :
      Moves L (.step t ans)
        ({ L with totalMaxIO := L.totalMaxIO - o.cfg.queueSize }.goto t (.inside c))
  | decrement (t ans) (ht : L.pc t = .decrement) :
      Moves L (.step t ans) ({ L with contexts := L.contexts - 1 }.goto t .readContexts)
  | setFlag (t ans) (ht : L.pc t = .setFlag) :
      Moves L (.step t ans) ({ L with shuttingDown := true }.goto t .readContexts)
  | readContexts (t ans) (ht : L.pc t = .readContexts) :
      Moves L (.step t ans) (L.goto t (if L.contexts = 0 then .readFlag else .outside))
  | readFlag (t ans) (ht : L.pc t = .readFlag) :
      Moves L (.step t ans) (L.goto t (if L.shuttingDown then .shutdownHook else .outside))
  | shutdownHook (t ans) (ht : L.pc t = .shutdownHook) :
      Moves L (.step t ans) ({ L.closeDumbHandlers with hooks := L.hooks + 1 }.goto t .outside)
  | complete (c k res o s) (ho : L.objects[c]? = some o)
      (hn : ArtemisNative.next o.cfg (L.view o) (.complete k res) = some s) :
      Moves L (.complete c k res) (L.put c { o with state := s })
  | redeliver (c k o s) (ho : L.objects[c]? = some o)
      (hn : ArtemisNative.next o.cfg (L.view o) (.redeliver k) = some s) :
      Moves L (.redeliver c k) (L.put c { o with state := s })
  | setForceSyscall (value) : Moves L (.setForceSyscall value) { L with forceSysCall := value }
  | unload : Moves L (.unload true) L.closeDumbHandlers
  | notAttached : Moves L (.unload false) L
  | openFile (n) : Moves L (.openFile n) { L with files := L.files.insert (.other n) }
  | closeFile (fd) : Moves L (.closeFile fd) (L.closeFd fd)

variable {L L' : Library Tid} {a : Act Tid} {t u : Tid} {c d : ℕ} {o o' o₁ : Instance Tid}
variable {s : State Tid} {l : Label Tid}

theorem within_eq_some (h : L.within c l = some (o, s)) :
    L.objects[c]? = some o ∧ ArtemisNative.next o.cfg (L.view o) l = some s := by
  simp only [within] at h
  split at h
  · cases h
  · rename_i o' ho
    obtain ⟨s', hs, he⟩ := Option.map_eq_some_iff.mp h
    obtain ⟨rfl, rfl⟩ := Prod.mk.inj he
    exact ⟨ho, hs⟩

theorem threadStep_moves {ans : Answer} (hn : L.next (.step t ans) = some L') :
    Moves L (.step t ans) L' := by
  simp only [next] at hn
  rcases ht : L.pc t with - | x | x | c | c | c | - | - | - | - | - <;> rw [ht] at hn
  · cases hn
  · obtain rfl := Option.some.inj hn
    exact .increment t ans x ht
  · cases hn
  · simp only [threadStep] at hn
    split at hn
    · cases hn
    · rename_i o ho
      obtain rfl := Option.some.inj hn
      exact .addTotal t ans c o ht ho
  · obtain ⟨⟨o, s⟩, hw, rfl⟩ := Option.map_eq_some_iff.mp hn
    obtain ⟨ho, hs⟩ := within_eq_some hw
    exact .inside t ans c o s ht ho hs
  · simp only [threadStep] at hn
    split at hn
    · cases hn
    · rename_i o ho
      obtain rfl := Option.some.inj hn
      exact .subTotal t ans c o ht ho
  · obtain rfl := Option.some.inj hn
    exact .decrement t ans ht
  · obtain rfl := Option.some.inj hn
    exact .setFlag t ans ht
  · obtain rfl := Option.some.inj hn
    exact .readContexts t ans ht
  · obtain rfl := Option.some.inj hn
    exact .readFlag t ans ht
  · obtain rfl := Option.some.inj hn
    exact .shutdownHook t ans ht

theorem next_moves (hn : L.next a = some L') : Moves L a L' := by
  cases a with
  | construct t x =>
    simp only [next] at hn
    split at hn
    · rename_i ht
      obtain rfl := Option.some.inj hn
      exact .construct t x ht
    · cases hn
  | newContext t env =>
    simp only [next] at hn
    split at hn
    · rename_i x ht
      cases env with
      | none =>
        obtain rfl := Option.some.inj hn
        exact .newThrew t x ht
      | some env =>
        simp only [newContextStep] at hn
        split at hn
        · rename_i hpos
          obtain rfl := Option.some.inj hn
          exact .created t x env ht hpos
        · cases hn
    · cases hn
  | call t c m =>
    simp only [next] at hn
    split at hn
    · rename_i ht
      simp only [callStep] at hn
      split at hn
      · cases hn
      · rename_i o s hw
        obtain ⟨ho, hs⟩ := within_eq_some hw
        split at hn
        · rename_i hcon
          obtain rfl := Option.some.inj hn
          exact .called t c m o s ht ho hcon hs
        · cases hn
    · cases hn
  | shutdown t =>
    simp only [next] at hn
    split at hn
    · rename_i ht
      obtain rfl := Option.some.inj hn
      exact .shutdown t ht
    · cases hn
  | step t ans => exact threadStep_moves hn
  | complete c k res =>
    obtain ⟨⟨o, s⟩, hw, rfl⟩ := Option.map_eq_some_iff.mp hn
    obtain ⟨ho, hs⟩ := within_eq_some hw
    exact .complete c k res o s ho hs
  | redeliver c k =>
    obtain ⟨⟨o, s⟩, hw, rfl⟩ := Option.map_eq_some_iff.mp hn
    obtain ⟨ho, hs⟩ := within_eq_some hw
    exact .redeliver c k o s ho hs
  | setForceSyscall value =>
    obtain rfl := Option.some.inj hn
    exact .setForceSyscall value
  | unload attached =>
    obtain rfl := Option.some.inj hn
    cases attached with
    | true => exact .unload
    | false => exact .notAttached
  | openFile n =>
    obtain rfl := Option.some.inj hn
    exact .openFile n
  | closeFile fd =>
    obtain rfl := Option.some.inj hn
    exact .closeFile fd

/-! ### Each context is a run of its own -/

omit [DecidableEq Tid] in
/-- The values of the shared variables do not matter to where the threads are. -/
@[simp] theorem view_pc : (L.view o).pc = o.state.pc := rfl

/-- The acts that run `closeDumbHandlers`. -/
def CleansUp (L : Library Tid) : Act Tid → Prop
  | .step t _ => L.pc t = .shutdownHook
  | .unload attached => attached = true
  | _ => False

/-- The steps of context `c` that an act may be; any act may also be a change of
a shared variable. -/
inductive Projects (L : Library Tid) (c : ℕ) : Act Tid → Label Tid → Prop
  | call (t m) : Projects L c (.call t c m) (.call t m)
  | step (t ans) (ht : L.pc t = .inside c) : Projects L c (.step t ans) (.step t ans)
  | complete (k res) : Projects L c (.complete c k res) (.complete k res)
  | redeliver (k) : Projects L c (.redeliver c k) (.redeliver k)
  | setForceSyscall (b value) : Projects L c b (.setForceSyscall value)
  | closeDumbHandlers (b) (h : L.CleansUp b) : Projects L c b .closeDumbHandlers

/-- The context `c` takes a step `l` of its own, and no other context moves. -/
theorem view_put (ho : L.objects[c]? = some o)
    (hn : ArtemisNative.next o.cfg (L.view o) l = some o₁.state) (hl : l ≠ .closeDumbHandlers)
    (hcfg : o₁.cfg = o.cfg) (hL : L'.objects = (L.put c o₁).objects)
    (hf : L'.forceSysCall = o₁.state.forceSysCall)
    (hh : L'.dumbWriteHandler = L.dumbWriteHandler) (hd : L.objects[d]? = some o') :
    ∃ o'', L'.objects[d]? = some o'' ∧ o''.cfg = o'.cfg ∧
      ((c = d ∧ o = o' ∧ L'.view o'' = o₁.state) ∨
        L'.view o'' = { L.view o' with forceSysCall := o₁.state.forceSysCall }) := by
  by_cases hcd : c = d
  · subst hcd
    obtain rfl := Option.some.inj (ho.symm.trans hd)
    refine ⟨o₁, ?_, hcfg, .inl ⟨rfl, rfl, ?_⟩⟩
    · rw [hL]
      exact List.getElem?_set_self (List.getElem?_eq_some_iff.mp ho).1
    · have hs : o₁.state.dumbWriteHandler = L.dumbWriteHandler := next_handler hn hl
      simp only [view, hf, hh, ← hs]
  · refine ⟨o', ?_, rfl, .inr ?_⟩
    · rw [hL]
      exact (List.getElem?_set_ne hcd).trans hd
    · simp only [view, hf, hh]

/-- What an act does to context `d`: nothing, or one step that it may be. -/
def Advances (L : Library Tid) (a : Act Tid) (L' : Library Tid) (d : ℕ) (o : Instance Tid) :
    Prop :=
  ∃ o', L'.objects[d]? = some o' ∧ o'.cfg = o.cfg ∧
    (L'.view o' = L.view o ∨
      ∃ l, L.Projects d a l ∧ ArtemisNative.next o.cfg (L.view o) l = some (L'.view o'))

/-- An act that leaves the contexts and the shared variables alone. -/
theorem Advances.same (hd : L.objects[d]? = some o) (hL : L'.objects = L.objects)
    (hf : L'.forceSysCall = L.forceSysCall) (hh : L'.dumbWriteHandler = L.dumbWriteHandler) :
    L.Advances a L' d o :=
  ⟨o, by rw [hL]; exact hd, rfl, .inl (by simp only [view, hf, hh])⟩

/-- An act that is a step of one context. -/
theorem Advances.of_put (o₁ : Instance Tid) (ho : L.objects[c]? = some o)
    (hn : ArtemisNative.next o.cfg (L.view o) l = some o₁.state) (hl : l ≠ .closeDumbHandlers)
    (hp : L.Projects c a l) (hcfg : o₁.cfg = o.cfg) (hL : L'.objects = (L.put c o₁).objects)
    (hf : L'.forceSysCall = o₁.state.forceSysCall)
    (hh : L'.dumbWriteHandler = L.dumbWriteHandler) (hd : L.objects[d]? = some o') :
    L.Advances a L' d o' := by
  obtain ⟨o'', hd', hcfg', hv⟩ := view_put ho hn hl hcfg hL hf hh hd
  refine ⟨o'', hd', hcfg', .inr ?_⟩
  rcases hv with ⟨rfl, rfl, hv⟩ | hv
  · exact ⟨l, hp, by rw [hv, hn]⟩
  · exact ⟨.setForceSyscall o₁.state.forceSysCall, .setForceSyscall _ _, by rw [hv]; rfl⟩

/-- The hook and the unloading close the descriptors for every context. -/
theorem Advances.of_cleansUp (ha : L.CleansUp a) (hd : L.objects[d]? = some o)
    (hL : L'.objects = L.objects) (hf : L'.forceSysCall = L.forceSysCall)
    (hh : L'.dumbWriteHandler = 0) : L.Advances a L' d o := by
  refine ⟨o, by rw [hL]; exact hd, rfl, .inr ⟨.closeDumbHandlers, .closeDumbHandlers _ ha, ?_⟩⟩
  simp only [ArtemisNative.next, view, hf, hh]

/-- **Every act is, for every context, at most one step of that context.** -/
theorem next_advances (hn : L.next a = some L') (hd : L.objects[d]? = some o) :
    L.Advances a L' d o := by
  cases next_moves hn with
  | created t x env _ _ =>
    refine ⟨o, ?_, rfl, .inl rfl⟩
    exact (List.getElem?_append_left (List.getElem?_eq_some_iff.mp hd).1).trans hd
  | addTotal t ans c o₁ _ ho =>
    by_cases hcd : c = d
    · subst hcd
      obtain rfl := Option.some.inj (ho.symm.trans hd)
      exact ⟨_, List.getElem?_set_self (List.getElem?_eq_some_iff.mp ho).1, rfl, .inl rfl⟩
    · exact ⟨o, (List.getElem?_set_ne hcd).trans hd, rfl, .inl rfl⟩
  | called t c m o₁ s _ ho _ hs =>
    exact .of_put (o₁.moved t s) ho hs nofun (.call t m) rfl rfl rfl rfl hd
  | inside t ans c o₁ s ht ho hs =>
    exact .of_put (o₁.moved t s) ho hs nofun (.step t ans ht) rfl rfl rfl rfl hd
  | complete c k res o₁ s ho hs =>
    exact .of_put { o₁ with state := s } ho hs nofun (.complete k res) rfl rfl rfl rfl hd
  | redeliver c k o₁ s ho hs =>
    exact .of_put { o₁ with state := s } ho hs nofun (.redeliver k) rfl rfl rfl rfl hd
  | shutdownHook t ans ht =>
    refine .of_cleansUp ht hd ?_ ?_ ?_
    · exact closeDumbHandlers_objects
    · exact closeDumbHandlers_forceSysCall
    · exact closeDumbHandlers_dumbWriteHandler
  | unload =>
    refine .of_cleansUp rfl hd ?_ ?_ ?_
    · exact closeDumbHandlers_objects
    · exact closeDumbHandlers_forceSysCall
    · exact closeDumbHandlers_dumbWriteHandler
  | setForceSyscall value =>
    exact ⟨o, hd, rfl, .inr ⟨.setForceSyscall value, .setForceSyscall _ _, rfl⟩⟩
  | _ => exact .same hd rfl rfl rfl

/-- A context was there before, or `newContext` has just made it. -/
theorem next_objects (hn : L.next a = some L') (hd : L'.objects[d]? = some o') :
    (∃ o, L.objects[d]? = some o) ∨
      ∃ t x env, a = .newContext t (some env) ∧ 0 < x.queueSize ∧
        d = L.objects.length ∧ o'.cfg = Construction.config x ∧
        L'.view o' = .initial o'.cfg
          { env with forceSysCall := L.forceSysCall, dumbWriteHandler := L.dumbWriteHandler } := by
  have hset : ∀ (c : ℕ) (o₁ : Instance Tid), (L.objects.set c o₁)[d]? = some o' →
      ∃ o, L.objects[d]? = some o := by
    intro c o₁ h
    have hlt := (List.getElem?_eq_some_iff.mp h).1
    rw [List.length_set] at hlt
    exact ⟨_, List.getElem?_eq_getElem hlt⟩
  cases next_moves hn with
  | created t x env ht hpos =>
    have hd : (L.objects ++ [_])[d]? = some o' := hd
    rcases Nat.lt_trichotomy d L.objects.length with hlt | rfl | hgt
    · exact .inl ⟨_, List.getElem?_eq_getElem hlt⟩
    · rw [List.getElem?_concat_length] at hd
      obtain rfl := Option.some.inj hd
      exact .inr ⟨t, x, env, rfl, hpos, rfl, rfl, rfl⟩
    · have hlt := (List.getElem?_eq_some_iff.mp hd).1
      rw [List.length_append, List.length_singleton] at hlt
      omega
  | addTotal t ans c o₁ _ _ => exact .inl (hset c _ hd)
  | called t c m o₁ s _ _ _ _ => exact .inl (hset c _ hd)
  | inside t ans c o₁ s _ _ _ => exact .inl (hset c _ hd)
  | complete c k res o₁ s _ _ => exact .inl (hset c _ hd)
  | redeliver c k o₁ s _ _ => exact .inl (hset c _ hd)
  | shutdownHook t ans ht =>
    have hd : L.closeDumbHandlers.objects[d]? = some o' := hd
    rw [closeDumbHandlers_objects] at hd
    exact .inl ⟨o', hd⟩
  | unload =>
    rw [closeDumbHandlers_objects] at hd
    exact .inl ⟨o', hd⟩
  | _ => exact .inl ⟨o', hd⟩

/-- Every context is a reachable state of its own system. -/
def Started (L : Library Tid) : Prop :=
  ∀ (d : ℕ) (o : Instance Tid), L.objects[d]? = some o → 0 < o.cfg.queueSize ∧
    ∃ env, Reaches (ArtemisNative.next o.cfg) (fun _ _ => True) (.initial o.cfg env) (L.view o)

theorem Started.onLoad (files : Slots OpenFile) : (JNI_OnLoad files : Library Tid).Started := by
  intro d o hd
  cases hd

theorem Started.step (h : L.Started) (hn : L.next a = some L') : L'.Started := by
  intro d o' hd
  rcases next_objects hn hd with ⟨o, ho⟩ | ⟨t, x, env, -, hpos, -, hcfg, hv⟩
  · obtain ⟨o₁, hd₁, hcfg, hstep⟩ := next_advances hn ho
    obtain rfl := Option.some.inj (hd.symm.trans hd₁)
    obtain ⟨hq, env, hr⟩ := h d o ho
    rw [hcfg]
    refine ⟨hq, env, ?_⟩
    rcases hstep with hv | ⟨l, -, hl⟩
    · rw [hv]
      exact hr
    · exact hr.step trivial hl
  · refine ⟨?_, _, by rw [hv]; exact .refl _⟩
    rw [hcfg]
    show 0 < x.queueSize.toNat
    omega

/-! ### Where the threads are -/

theorem after_inside {p q : Pc} (h : after c p q = .inside d) : c = d := by
  unfold after at h
  split at h <;> cases h
  rfl

theorem after_subTotal {p q : Pc} (h : after c p q = .subTotal d) :
    c = d ∧ q = .close .getIOCB := by
  unfold after at h
  split at h <;> cases h
  exact ⟨rfl, rfl⟩

theorem after_cases (c : ℕ) (p q : Pc) :
    (∃ out, q = .idle out) ∨ after c p q = .inside c ∨ after c p q = .subTotal c := by
  unfold after
  split
  · exact .inr (.inr rfl)
  · exact .inl ⟨_, rfl⟩
  · exact .inl ⟨_, rfl⟩
  · exact .inr (.inl rfl)

omit [DecidableEq Tid] in
theorem Projects.tid? (h : L.Projects c a l) (hl : l.tid? = some u) : a.tid? = some u := by
  cases h with
  | call t m => exact hl
  | step t ans _ => exact hl
  | _ => cases hl

/-- The other threads stay where they are, in the class and in its contexts. -/
theorem next_pc_of_ne (hn : L.next a = some L') (hu : a.tid? ≠ some u) : L'.pc u = L.pc u := by
  have hne : ∀ t : Tid, some t ≠ some u → u ≠ t := fun t h he => h (he ▸ rfl)
  cases next_moves hn with
  | construct t _ _ | newThrew t _ _ | created t _ _ _ _ | called t _ _ _ _ _ _ _ _
  | shutdown t _ | increment t _ _ _ | addTotal t _ _ _ _ _ | inside t _ _ _ _ _ _ _
  | subTotal t _ _ _ _ _ | decrement t _ _ | setFlag t _ _ | readContexts t _ _
  | readFlag t _ _ => exact Function.update_of_ne (hne t hu) _ _
  | shutdownHook t _ _ =>
    show Function.update L.closeDumbHandlers.pc t _ u = _
    rw [Function.update_of_ne (hne t hu), closeDumbHandlers_pc]
  | unload => exact congrFun closeDumbHandlers_pc u
  | _ => rfl

theorem next_state_pc_of_ne (hn : L.next a = some L') (hu : a.tid? ≠ some u)
    (hd : L.objects[d]? = some o) (hd' : L'.objects[d]? = some o') :
    o'.state.pc u = o.state.pc u := by
  obtain ⟨o₁, hd₁, -, hstep⟩ := next_advances hn hd
  obtain rfl := Option.some.inj (hd'.symm.trans hd₁)
  rcases hstep with hv | ⟨l, hp, hl⟩
  · exact congrFun (congrArg State.pc hv) u
  · have hpc := ArtemisNative.next_pc_of_ne hl fun h => hu (hp.tid? h)
    exact hpc

/-- The position of a thread agrees with its program counters: it is inside the
methods of no other context than the one it is said to be in. -/
structure PlacedAt (L : Library Tid) (t : Tid) : Prop where
  inside : ∀ c, L.pc t = .inside c → ∃ o, L.objects[c]? = some o
  subTotal : ∀ c, L.pc t = .subTotal c →
    ∃ o, L.objects[c]? = some o ∧ o.state.pc t = .close .getIOCB
  addTotal : ∀ c, L.pc t = .addTotal c → ∃ o, L.objects[c]? = some o
  idle : ∀ (c : ℕ) (o : Instance Tid), L.objects[c]? = some o →
    (∃ out, o.state.pc t = .idle out) ∨ L.pc t = .inside c ∨ L.pc t = .subTotal c

def Placed (L : Library Tid) : Prop := ∀ t, L.PlacedAt t

/-- A thread that another one does not disturb. -/
theorem PlacedAt.frame (h : L.PlacedAt u) (hn : L.next a = some L') (hu : a.tid? ≠ some u) :
    L'.PlacedAt u := by
  have hpc := next_pc_of_ne hn hu
  have hkeep : ∀ (c : ℕ) (o : Instance Tid), L.objects[c]? = some o →
      ∃ o', L'.objects[c]? = some o' ∧ o'.state.pc u = o.state.pc u := by
    intro c o ho
    obtain ⟨o', ho', -, -⟩ := next_advances hn ho
    exact ⟨o', ho', next_state_pc_of_ne hn hu ho ho'⟩
  constructor
  · intro c hc
    obtain ⟨o, ho⟩ := h.inside c (hpc ▸ hc)
    obtain ⟨o', ho', -⟩ := hkeep c o ho
    exact ⟨o', ho'⟩
  · intro c hc
    obtain ⟨o, ho, hq⟩ := h.subTotal c (hpc ▸ hc)
    obtain ⟨o', ho', he⟩ := hkeep c o ho
    exact ⟨o', ho', he.trans hq⟩
  · intro c hc
    obtain ⟨o, ho⟩ := h.addTotal c (hpc ▸ hc)
    obtain ⟨o', ho', -⟩ := hkeep c o ho
    exact ⟨o', ho'⟩
  · intro c o' ho'
    rw [hpc]
    rcases next_objects hn ho' with ⟨o, ho⟩ | ⟨_, _, _, -, -, -, -, hv⟩
    · rw [next_state_pc_of_ne hn hu ho ho']
      exact h.idle c o ho
    · exact .inl ⟨.none, congrFun (congrArg State.pc hv) u⟩

/-- Thread `t` is outside the methods of every context. -/
def Away (L : Library Tid) (t : Tid) : Prop :=
  ∀ (c : ℕ) (o : Instance Tid), L.objects[c]? = some o → ∃ out, o.state.pc t = .idle out

omit [DecidableEq Tid] in
theorem PlacedAt.away (h : L.PlacedAt t) (hin : ∀ c, L.pc t ≠ .inside c)
    (hsub : ∀ c, L.pc t ≠ .subTotal c) : L.Away t := by
  intro c o ho
  rcases h.idle c o ho with hidle | hc | hc
  · exact hidle
  · exact absurd hc (hin c)
  · exact absurd hc (hsub c)

omit [DecidableEq Tid] in
theorem Away.placedAt (h : L.Away t) (hin : ∀ c, L.pc t ≠ .inside c)
    (hsub : ∀ c, L.pc t ≠ .subTotal c)
    (hadd : ∀ c, L.pc t = .addTotal c → ∃ o, L.objects[c]? = some o) : L.PlacedAt t where
  inside := fun c hc => absurd hc (hin c)
  subTotal := fun c hc => absurd hc (hsub c)
  addTotal := hadd
  idle := fun c o ho => .inl (h c o ho)

/-- After a step inside context `c` the thread is in no other one. -/
theorem PlacedAt.moved (ho : L.objects[c]? = some o)
    (hother : ∀ (d : ℕ) (o' : Instance Tid), d ≠ c → L.objects[d]? = some o' →
      ∃ out, o'.state.pc t = .idle out) : (L.moved t c o s).PlacedAt t := by
  have hlt := (List.getElem?_eq_some_iff.mp ho).1
  have hself : (L.moved t c o s).objects[c]? = some (o.moved t s) :=
    List.getElem?_set_self hlt
  have hpc : (L.moved t c o s).pc t = after c (o.state.pc t) (s.pc t) :=
    Function.update_self ..
  constructor
  · intro d hd
    obtain rfl := after_inside (hpc.symm.trans hd)
    exact ⟨_, hself⟩
  · intro d hd
    obtain ⟨rfl, hq⟩ := after_subTotal (hpc.symm.trans hd)
    exact ⟨_, hself, hq⟩
  · intro d hd
    have hd := hpc.symm.trans hd
    unfold after at hd
    split at hd <;> cases hd
  · intro d o' hd
    by_cases hdc : d = c
    · subst hdc
      obtain rfl := Option.some.inj (hd.symm.trans hself)
      rw [hpc]
      exact after_cases d (o.state.pc t) (s.pc t)
    · refine .inl (hother d o' hdc ?_)
      rw [← hd]
      exact (List.getElem?_set_ne (Ne.symm hdc)).symm

omit [DecidableEq Tid] in
theorem Placed.onLoad (files : Slots OpenFile) : (JNI_OnLoad files : Library Tid).Placed := by
  intro t
  refine Away.placedAt ?_ nofun nofun nofun
  intro c o ho
  cases ho

theorem Placed.step (h : L.Placed) (hn : L.next a = some L') : L'.Placed := by
  intro u
  by_cases hu : a.tid? = some u
  · have hu' := h u
    cases next_moves hn with
    | construct t x ht | shutdown t ht | increment t _ _ ht | decrement t _ ht
    | setFlag t _ ht | newThrew t _ ht =>
      obtain rfl := Option.some.inj hu
      have haway := hu'.away (by simp [ht]) (by simp [ht])
      exact Away.placedAt haway (by simp [goto]) (by simp [goto]) (by simp [goto])
    | readContexts t ans ht | readFlag t ans ht =>
      obtain rfl := Option.some.inj hu
      have haway := hu'.away (by simp [ht]) (by simp [ht])
      refine Away.placedAt haway ?_ ?_ ?_ <;>
      · simp only [goto, Function.update_self]
        split <;> simp
    | shutdownHook t ans ht =>
      obtain rfl := Option.some.inj hu
      have haway := hu'.away (by simp [ht]) (by simp [ht])
      refine Away.placedAt (fun c o ho => haway c o ?_) (by simp [goto]) (by simp [goto])
        (by simp [goto])
      exact (congrArg (·[c]?) closeDumbHandlers_objects.symm).trans ho
    | created t x env ht hpos =>
      obtain rfl := Option.some.inj hu
      have haway := hu'.away (by simp [ht]) (by simp [ht])
      refine Away.placedAt (fun c o ho => ?_) (by simp [goto]) (by simp [goto]) ?_
      · rcases next_objects hn ho with ⟨o₁, ho₁⟩ | ⟨_, _, _, -, -, -, -, hv⟩
        · have hlt := (List.getElem?_eq_some_iff.mp ho₁).1
          exact haway c o ((List.getElem?_append_left hlt).symm.trans ho)
        · exact ⟨.none, congrFun (congrArg State.pc hv) t⟩
      · intro c hc
        obtain rfl : L.objects.length = c := by simpa [goto] using hc
        exact ⟨_, List.getElem?_concat_length⟩
    | addTotal t ans c o ht ho =>
      obtain rfl := Option.some.inj hu
      have haway := hu'.away (by simp [ht]) (by simp [ht])
      refine Away.placedAt (fun d o' hd => ?_) (by simp [goto]) (by simp [goto]) (by simp [goto])
      have hd : (L.objects.set c { o with constructed := true })[d]? = some o' := hd
      by_cases hdc : c = d
      · subst hdc
        rw [List.getElem?_set_self (List.getElem?_eq_some_iff.mp ho).1] at hd
        obtain rfl := Option.some.inj hd
        exact haway c o ho
      · rw [List.getElem?_set_ne hdc] at hd
        exact haway d o' hd
    | called t c m o s ht ho hcon hs =>
      obtain rfl := Option.some.inj hu
      have haway := hu'.away (by simp [ht]) (by simp [ht])
      exact .moved ho fun d o' _ hd => haway d o' hd
    | inside t ans c o s ht ho hs =>
      obtain rfl := Option.some.inj hu
      refine .moved ho fun d o' hne hd => ?_
      rcases hu'.idle d o' hd with hidle | hd | hd
      · exact hidle
      · exact absurd (LibPc.inside.inj (hd.symm.trans ht)) hne
      · rw [ht] at hd
        cases hd
    | subTotal t ans c o ht ho =>
      obtain rfl := Option.some.inj hu
      refine ⟨fun d hd => ?_, by simp [goto], by simp [goto], fun d o' hd => ?_⟩
      · obtain rfl : c = d := by simpa [goto] using hd
        exact ⟨o, ho⟩
      · rcases hu'.idle d o' hd with hidle | hd | hd
        · exact .inl hidle
        · rw [ht] at hd
          cases hd
        · obtain rfl := LibPc.subTotal.inj (ht.symm.trans hd)
          exact .inr (.inl (by simp [goto]))
    | _ => cases hu
  · exact (h u).frame hn hu

/-! ### Small runs -/

/-- The standard descriptors of a process. -/
def stdio : Slots OpenFile := ((Slots.empty.insert (.other 0)).insert (.other 1)).insert (.other 2)

/-- A process that has loaded the library. -/
def sample : Library Bool := JNI_OnLoad stdio

/-- The memory `newContext` gets. -/
def memory : Process :=
  ⟨fun _ => ⟨.pread, 0, 0, 0, .null⟩, fun _ => ⟨0, 0, 0⟩, .empty, false, 0⟩

/-- `n` steps of thread `t`. -/
def acts (t : Bool) (n : ℕ) : List (Act Bool) := List.replicate n (.step t {})

/-- An undisturbed construction. -/
def constructs (t : Bool) (queueSize : ℤ) : List (Act Bool) :=
  [.construct t ⟨queueSize, true, false⟩, .step t {}, .newContext t (some memory), .step t {}]

end Library

end ArtemisNative
