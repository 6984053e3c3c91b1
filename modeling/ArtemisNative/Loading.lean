/-
ArtemisNative/Loading.lean

What the native library takes from the process, and what it gives back.

`JNI_OnLoad` acquires one thing after the other, a mutex, the stop file with its
descriptor, and global references to four classes, and returns `JNI_ERR` from ten places
in between.  It gives nothing back there.  For two of the classes it does not look at what
`NewGlobalRef` returned, and passes it to `GetMethodID`; a virtual machine that is handed
`NULL` there is gone.  `fill` adds `oneMegaBuffer`, `open` and `getBlockSize` the
characters of a path, and `JNI_OnUnload` gives back what is there, except for the
descriptor of the stop file, since `closeDumbHandlers` closes `dumbWriteHandler` behind
having set it to `0`.  `getBlockSize` keeps the characters when `stat` fails.

A process may load and unload the library any number of times (the class loader can go
and come again), with the variables as the C source initialises them each time.  A
`Process` has a history of these lives, and `Fate.leaves` says what is left of a life, for
each way it can come to its end.  That this is so at any moment of any run, and that
nothing is used that is not live, or released twice, is `library_accounts`.

Descriptor `0` is taken not to be free when the library is loaded: `dumbWriteHandler = 0`
is the mark for a stop file that has been closed.
-/
import ArtemisNative.Lib.Tenure
import Mathlib.Data.Finset.Card
import Mathlib.Data.Finset.Range
import Mathlib.Data.List.Induction

namespace ArtemisNative

namespace Loading

open Transition

/-! ### Resources -/

/-- The classes the library holds a global reference to. -/
inductive JavaClass
  | runtimeException
  | ioException
  | submitInfo
  | libaioContext
  deriving DecidableEq, Repr

/-- `errorMethod`, `doneMethod` and `libaioContextDone`. -/
inductive JavaMethod
  | onError
  | done
  | contextDone
  deriving DecidableEq, Repr

/-- What belongs to the `g`-th life of the library, and the characters that the `k`-th
`GetStringUTFChars` has returned. -/
inductive Asset
  | oneMegaMutex (g : ℕ)
  | dumbWriteHandler (g : ℕ)
  | dumbPath (g : ℕ)
  | classRef (g : ℕ) (c : JavaClass)
  | oneMegaBuffer (g : ℕ)
  | chars (k : ℕ)
  deriving DecidableEq, Repr

/-- The variables of the library; `dumbPath` and `oneMegaMutex` need not be kept.  A
class is `true` where the variable is not `NULL`. -/
structure Globals where
  dumbWriteHandler : ℤ
  oneMegaBuffer : Bool
  classes : JavaClass → Bool

namespace Globals

/-- The initializers of the C source. -/
def initial : Globals := ⟨0, false, fun _ => false⟩

def setClass (globals : Globals) (c : JavaClass) (value : Bool) : Globals :=
  { globals with classes := Function.update globals.classes c value }

end Globals

/-! ### JNI_OnLoad -/

/-- What `JNI_OnLoad` is answered. -/
structure Environment where
  /-- `GetEnv` returns `JNI_OK` -/
  getEnv : Bool := true
  mutexInit : ℤ := 0
  mkstemp : ℤ := 3
  /-- what does not return `NULL` -/
  findClass : JavaClass → Bool := fun _ => true
  newGlobalRef : JavaClass → Bool := fun _ => true
  getMethodID : JavaMethod → Bool := fun _ => true

/-- The places where `JNI_OnLoad` returns `JNI_ERR`, with an exception pending from
`noClass` on; in `nullClass` it does not return. -/
inductive Failure
  | noEnv
  | mutex (res : ℤ)
  | stopFile
  | noClass (c : JavaClass)
  | outOfMemory (c : JavaClass)
  | noMethod (m : JavaMethod)
  | nullClass (c : JavaClass)
  deriving DecidableEq, Repr

def Failure.crashes : Failure → Bool
  | .nullClass _ => true
  | _ => false

/-- The variables, and what has been done so far. -/
structure Loaded where
  globals : Globals
  uses : List (Use Asset)

def Loaded.acquire (s : Loaded) (a : Asset) : Loaded := { s with uses := s.uses ++ [.acquire a] }

/-- What a part of `JNI_OnLoad` comes to. -/
abbrev Part := Except (Failure × Loaded) Loaded

section Parts

variable (g : ℕ) (env : Environment)

def attach (s : Loaded) : Part := if env.getEnv then .ok s else .error (.noEnv, s)

def initMutex (s : Loaded) : Part :=
  if env.mutexInit ≠ 0 then .error (.mutex env.mutexInit, s)
  else .ok (s.acquire (.oneMegaMutex g))

def makeStopFile (s : Loaded) : Part :=
  let s := { s with globals := { s.globals with dumbWriteHandler := env.mkstemp } }
  if env.mkstemp < 0 then .error (.stopFile, s)
  else .ok ((s.acquire (.dumbWriteHandler g)).acquire (.dumbPath g))

/-- `runtimeExceptionClass` and `ioExceptionClass`. -/
def holdException (c : JavaClass) (s : Loaded) : Part :=
  if env.findClass c = false then .error (.noClass c, s)
  else if env.newGlobalRef c then
    .ok ({ s with globals := s.globals.setClass c true }.acquire (.classRef g c))
  else .error (.outOfMemory c, { s with globals := s.globals.setClass c false })

/-- `submitClass` and `libaioContextClass`: what `NewGlobalRef` returns is not looked at. -/
def holdClass (c : JavaClass) (s : Loaded) : Part :=
  if env.findClass c = false then .error (.noClass c, s)
  else if env.newGlobalRef c then
    .ok ({ s with globals := s.globals.setClass c true }.acquire (.classRef g c))
  else .ok { s with globals := s.globals.setClass c false }

def getMethodID (c : JavaClass) (m : JavaMethod) (s : Loaded) : Part :=
  if s.globals.classes c = false then .error (.nullClass c, s)
  else if env.getMethodID m then .ok s else .error (.noMethod m, s)

def JNI_OnLoad : Part := do
  let s ← attach env ⟨.initial, []⟩
  let s ← initMutex g env s
  let s ← makeStopFile g env s
  let s ← holdException g env .runtimeException s
  let s ← holdException g env .ioException s
  let s ← holdClass g env .submitInfo s
  let s ← getMethodID env .submitInfo .onError s
  let s ← getMethodID env .submitInfo .done s
  let s ← holdClass g env .libaioContext s
  getMethodID env .libaioContext .contextDone s

end Parts

/-! ### What a life leaves behind -/

/-- What `JNI_OnLoad` acquires, in its order. -/
def acquired (g : ℕ) : List Asset :=
  [.oneMegaMutex g, .dumbWriteHandler g, .dumbPath g, .classRef g .runtimeException,
    .classRef g .ioException, .classRef g .submitInfo, .classRef g .libaioContext]

/-- The number of these that have been acquired where `JNI_OnLoad` fails. -/
def Failure.reached : Failure → ℕ
  | .noEnv | .mutex _ => 0
  | .stopFile => 1
  | .noClass .runtimeException | .outOfMemory .runtimeException => 3
  | .noClass .ioException | .outOfMemory .ioException => 4
  | .noClass .submitInfo | .nullClass .submitInfo => 5
  | .noMethod .contextDone => 7
  | _ => 6

/-- What the library has while it is loaded. -/
def Globals.held (g : ℕ) (globals : Globals) : List Asset :=
  [.oneMegaMutex g, .dumbWriteHandler g] ++
    (if globals.dumbWriteHandler ≠ 0 then [.dumbPath g] else []) ++
    (if globals.oneMegaBuffer then [.oneMegaBuffer g] else []) ++
    [.classRef g .runtimeException, .classRef g .ioException, .classRef g .submitInfo,
      .classRef g .libaioContext]

/-- How a life of the library goes on or has ended; `abandoned` is an unloading in which
`GetEnv` fails. -/
inductive Fate
  | failed (e : Failure)
  | running
  | unloaded
  | abandoned (globals : Globals)

def Fate.leaves (g : ℕ) : Fate → List Asset
  | .failed e => (acquired g).take e.reached
  | .running => []
  | .unloaded => [.dumbWriteHandler g]
  | .abandoned globals => globals.held g

/-! ### The process -/

/-- A process; `current` are the variables of the library while it is loaded. -/
structure Process where
  current : Option Globals
  crashed : Bool
  /-- history: the lives of the library, and for each call of `GetStringUTFChars` whether
  the characters have been released -/
  lives : List Fate
  strings : List Bool

inductive Label
  /-- the virtual machine loads the library, and unloads it -/
  | load (env : Environment)
  | unload (getEnv : Bool)
  | shutdownHook
  /-- `fill`, where `posix_memalign` succeeds or not if it is called -/
  | fill (memalign : Bool)
  /-- a native method throws; a callback is called through its method id -/
  | throwRuntimeException
  | throwIOException
  | callback
  /-- the path leads to a file that can be opened, or for which `stat` succeeds -/
  | openFile (opened : Bool)
  | getBlockSize (stat : Bool)

def closeDumbHandlers (globals : Globals) : Globals :=
  if globals.dumbWriteHandler ≠ 0 then { globals with dumbWriteHandler := 0 } else globals

/-- Only the path is given back: what is closed is descriptor `0`. -/
def closeDumbHandlersUses (g : ℕ) (globals : Globals) : List (Use Asset) :=
  if globals.dumbWriteHandler ≠ 0 then [.release (.dumbPath g)] else []

/-- `verifyBuffer`. -/
def verifyBuffer (globals : Globals) (memalign : Bool) : Globals :=
  if globals.oneMegaBuffer = false ∧ memalign then { globals with oneMegaBuffer := true }
  else globals

/-- `verifyBuffer`, and the writes of what the variable then points to. -/
def fillUses (g : ℕ) (globals : Globals) (memalign : Bool) : List (Use Asset) :=
  [.touch (.oneMegaMutex g)] ++
    (if globals.oneMegaBuffer = false ∧ memalign then [.acquire (.oneMegaBuffer g)] else []) ++
    if (verifyBuffer globals memalign).oneMegaBuffer then [.touch (.oneMegaBuffer g)] else []

/-- `JNI_OnUnload`, when `GetEnv` succeeds. -/
def JNI_OnUnload (g : ℕ) (globals : Globals) : List (Use Asset) :=
  closeDumbHandlersUses g globals ++
    (if globals.oneMegaBuffer then [.release (.oneMegaBuffer g)] else []) ++
    [.release (.oneMegaMutex g)] ++
    ([JavaClass.runtimeException, .ioException, .submitInfo, .libaioContext].filter
      globals.classes).map fun c => .release (.classRef g c)

/-- `GetStringUTFChars`, which is taken to succeed, the system call, and what comes of it. -/
def openUses (g k : ℕ) (opened : Bool) : List (Use Asset) :=
  [.acquire (.chars k), .touch (.chars k), .release (.chars k)] ++
    if opened then [] else [.touch (.classRef g .ioException)]

def getBlockSizeUses (g k : ℕ) (stat : Bool) : List (Use Asset) :=
  [.acquire (.chars k), .touch (.chars k)] ++
    if stat then [.release (.chars k)] else [.touch (.classRef g .ioException)]

namespace Process

/-- A process that has not loaded the library. -/
def initial : Process := ⟨none, false, [], []⟩

/-- The current life. -/
def life (s : Process) : ℕ := s.lives.length - 1

/-- The current life has come to its end. -/
def stop (s : Process) (fate : Fate) : Process :=
  { s with current := none, lives := s.lives.set s.life fate }

/-- Native methods are called while the library is loaded. -/
def native (s : Process) : Label → Globals → Process
  | .load _, _ => s
  | .unload true, _ => s.stop .unloaded
  | .unload false, globals => s.stop (.abandoned globals)
  | .shutdownHook, globals => { s with current := some (closeDumbHandlers globals) }
  | .fill memalign, globals => { s with current := some (verifyBuffer globals memalign) }
  | .throwRuntimeException, _ | .throwIOException, _ | .callback, _ => s
  | .openFile _, _ => { s with strings := s.strings ++ [true] }
  | .getBlockSize stat, _ => { s with strings := s.strings ++ [stat] }

def next (s : Process) (l : Label) : Option Process :=
  if s.crashed then none
  else
    match l, s.current with
    | .load env, none =>
      match JNI_OnLoad s.lives.length env with
      | .ok loaded =>
        some { s with current := some loaded.globals, lives := s.lives ++ [.running] }
      | .error (e, _) => some { s with crashed := e.crashes, lives := s.lives ++ [.failed e] }
    | .load _, some _ => none
    | l, some globals => some (s.native l globals)
    | _, none => none

/-- What a native method does. -/
def nativeUses (s : Process) (globals : Globals) : Label → List (Use Asset)
  | .load _ => []
  | .unload getEnv => if getEnv then JNI_OnUnload s.life globals else []
  | .shutdownHook => closeDumbHandlersUses s.life globals
  | .fill memalign => fillUses s.life globals memalign
  | .throwRuntimeException => [.touch (.classRef s.life .runtimeException)]
  | .throwIOException => [.touch (.classRef s.life .ioException)]
  | .callback =>
    [.touch (.classRef s.life .submitInfo), .touch (.classRef s.life .libaioContext)]
  | .openFile opened => openUses s.life s.strings.length opened
  | .getBlockSize stat => getBlockSizeUses s.life s.strings.length stat

def usage (s : Process) (l : Label) : List (Use Asset) :=
  match l, s.current with
  | .load env, _ =>
    match JNI_OnLoad s.lives.length env with
    | .ok loaded => loaded.uses
    | .error (_, loaded) => loaded.uses
  | l, some globals => s.nativeUses globals l
  | _, none => []

end Process

/-- Descriptor `0` is in use when the stop file is made. -/
def StdinOpen (_ : Process) : Label → Prop
  | .load env => env.mkstemp ≠ 0
  | _ => True

instance (s : Process) : DecidablePred (StdinOpen s)
  | .load env => inferInstanceAs (Decidable (env.mkstemp ≠ 0))
  | .unload _ | .shutdownHook | .fill _ | .throwRuntimeException | .throwIOException | .callback
  | .openFile _ | .getBlockSize _ => isTrue trivial

/-! ### What is live -/

variable {s s' : Process} {l : Label} {ls : List Label} {g k : ℕ} {a : Asset}
variable {globals globals' : Globals} {env : Environment} {e : Failure} {L L' : Finset Asset}
variable {lives : List Fate} {fate : Fate}

/-- What is left of lives that are over. -/
def Left (lives : List Fate) (a : Asset) : Prop :=
  ∃ (g : ℕ) (fate : Fate), lives[g]? = some fate ∧ a ∈ fate.leaves g

/-- Characters that nobody will release. -/
def Kept (strings : List Bool) (a : Asset) : Prop := ∃ k, strings[k]? = some false ∧ a = .chars k

/-- What is left, and what the library has. -/
def Process.Live (s : Process) (a : Asset) : Prop :=
  Left s.lives a ∨ Kept s.strings a ∨ ∃ globals, s.current = some globals ∧
    a ∈ globals.held s.life

/-- The set `L` is what is live.  A loaded library has its four classes, and its life is
the last one. -/
structure Account (s : Process) (L : Finset Asset) : Prop where
  live : ∀ a, a ∈ L ↔ s.Live a
  classes : ∀ globals, s.current = some globals → ∀ c, globals.classes c = true
  running : ∀ globals, s.current = some globals → ∃ lives, s.lives = lives ++ [.running]

/-! ### JNI_OnLoad gives nothing back -/

/-- The first `n` resources have been acquired, and nothing else has been done. -/
def Loaded.Has (g n : ℕ) (s : Loaded) : Prop := s.uses = ((acquired g).take n).map .acquire

/-- Where a part of `JNI_OnLoad` goes on, it does so in `Q`; where it fails, what has been
acquired is what belongs to the failure. -/
def Part.Ends (g : ℕ) (x : Part) (Q : Loaded → Prop) : Prop :=
  match x with
  | .ok s => Q s
  | .error (e, s) => s.Has g e.reached

section

variable {s : Loaded} {x : Part} {f : Loaded → Part} {Q R : Loaded → Prop} {n : ℕ}
variable {c : JavaClass} {m : JavaMethod}

theorem Globals.setClass_self (c : JavaClass) (value : Bool) :
    (globals.setClass c value).classes c = value := Function.update_self ..

theorem Part.Ends.mono (hx : Part.Ends g x Q) (hQ : ∀ s, Q s → R s) : Part.Ends g x R := by
  cases x with
  | ok s => exact hQ s hx
  | error e => exact hx

theorem Part.Ends.bind (hx : Part.Ends g x Q) (hf : ∀ s, Q s → Part.Ends g (f s) R) :
    Part.Ends g (x >>= f) R := by
  cases x with
  | ok s => exact hf s hx
  | error e => exact hx

theorem Loaded.Has.acquire {a : Asset} (h : s.Has g n) (ha : (acquired g)[n]? = some a) :
    (s.acquire a).Has g (n + 1) := by
  show s.uses ++ _ = _
  rw [h, List.take_add_one, ha, List.map_append]
  rfl

theorem attach_ends (h : s.Has g 0) : Part.Ends g (attach env s) (s = ·) := by
  unfold attach
  split
  · exact rfl
  · exact h

theorem initMutex_ends (h : s.Has g 0) :
    Part.Ends g (initMutex g env s) fun x => x.Has g 1 ∧ x.globals = s.globals := by
  unfold initMutex
  split
  · exact h
  · exact ⟨h.acquire rfl, rfl⟩

theorem makeStopFile_ends (h : s.Has g 1) :
    Part.Ends g (makeStopFile g env s) fun x => x.Has g 3 ∧
      x.globals = { s.globals with dumbWriteHandler := env.mkstemp } ∧ 0 ≤ env.mkstemp := by
  unfold makeStopFile
  split
  · exact h
  · rename_i hneg
    have hfd : ({ s with globals := { s.globals with dumbWriteHandler := env.mkstemp } } :
        Loaded).Has g 1 := h
    exact ⟨(hfd.acquire rfl).acquire rfl, rfl, by omega⟩

theorem holdException_ends (h : s.Has g n) (hc : (acquired g)[n]? = some (.classRef g c))
    (hclass : (Failure.noClass c).reached = n) (hmemory : (Failure.outOfMemory c).reached = n) :
    Part.Ends g (holdException g env c s) fun x =>
      x.Has g (n + 1) ∧ x.globals = s.globals.setClass c true := by
  unfold holdException
  split
  · show s.Has g _
    rw [hclass]
    exact h
  split
  · have hset : ({ s with globals := s.globals.setClass c true } : Loaded).Has g n := h
    exact ⟨hset.acquire hc, rfl⟩
  · show s.Has g _
    rw [hmemory]
    exact h

/-- The reference has been made, or the variable is `NULL`. -/
theorem holdClass_ends (h : s.Has g n) (hc : (acquired g)[n]? = some (.classRef g c))
    (hclass : (Failure.noClass c).reached = n) :
    Part.Ends g (holdClass g env c s) fun x =>
      (x.Has g (n + 1) ∧ x.globals = s.globals.setClass c true) ∨
        (x.Has g n ∧ x.globals = s.globals.setClass c false) := by
  unfold holdClass
  split
  · show s.Has g _
    rw [hclass]
    exact h
  split
  · have hset : ({ s with globals := s.globals.setClass c true } : Loaded).Has g n := h
    exact .inl ⟨hset.acquire hc, rfl⟩
  · exact .inr ⟨h, rfl⟩

theorem getMethodID_ends (h : s.Has g n) (hc : s.globals.classes c = true)
    (hmethod : (Failure.noMethod m).reached = n) :
    Part.Ends g (getMethodID env c m s) (s = ·) := by
  unfold getMethodID
  rw [if_neg (by rw [hc]; exact Bool.noConfusion)]
  split
  · exact rfl
  · show s.Has g _
    rw [hmethod]
    exact h

/-- A class whose reference is not looked at, and the first use of it, which a `NULL` does
not survive. -/
theorem heldClass_ends (h : s.Has g n) (hc : (acquired g)[n]? = some (.classRef g c))
    (hclass : (Failure.noClass c).reached = n) (hnull : (Failure.nullClass c).reached = n)
    (hmethod : (Failure.noMethod m).reached = n + 1) :
    Part.Ends g (holdClass g env c s >>= getMethodID env c m) fun x =>
      x.Has g (n + 1) ∧ x.globals = s.globals.setClass c true := by
  refine (holdClass_ends h hc hclass).bind ?_
  rintro x (⟨hx, hg⟩ | ⟨hx, hg⟩)
  · refine (getMethodID_ends hx (by rw [hg, Globals.setClass_self]) hmethod).mono ?_
    rintro _ rfl
    exact ⟨hx, hg⟩
  · unfold getMethodID
    rw [if_pos (by rw [hg, Globals.setClass_self])]
    show x.Has g _
    rw [hnull]
    exact hx

end

/-- **What `JNI_OnLoad` has done, wherever it returns.** -/
theorem JNI_OnLoad_ends (g : ℕ) (env : Environment) :
    Part.Ends g (JNI_OnLoad g env) fun x => x.Has g 7 ∧
      x.globals.dumbWriteHandler = env.mkstemp ∧ x.globals.oneMegaBuffer = false ∧
      ∀ c, x.globals.classes c = true := by
  unfold JNI_OnLoad
  have h₀ : (⟨.initial, []⟩ : Loaded).Has g 0 := rfl
  refine (attach_ends h₀).bind ?_
  rintro _ rfl
  refine (initMutex_ends h₀).bind ?_
  rintro s₁ ⟨h₁, hg₁⟩
  refine (makeStopFile_ends h₁).bind ?_
  rintro s₂ ⟨h₂, hg₂, -⟩
  refine (holdException_ends h₂ rfl rfl rfl).bind ?_
  rintro s₃ ⟨h₃, hg₃⟩
  refine (holdException_ends h₃ rfl rfl rfl).bind ?_
  rintro s₄ ⟨h₄, hg₄⟩
  rw [← bind_assoc]
  refine (heldClass_ends h₄ rfl rfl rfl rfl).bind ?_
  rintro s₅ ⟨h₅, hg₅⟩
  refine (getMethodID_ends h₅ (by rw [hg₅, Globals.setClass_self]) rfl).bind ?_
  rintro _ rfl
  refine (heldClass_ends h₅ rfl rfl rfl rfl).mono ?_
  rintro s₆ ⟨h₆, hg₆⟩
  -- each part has set one variable
  refine ⟨h₆, ?_, ?_, fun c => ?_⟩
  · rw [hg₆, hg₅, hg₄, hg₃, hg₂]
    rfl
  · rw [hg₆, hg₅, hg₄, hg₃, hg₂, hg₁]
    rfl
  · rw [hg₆, hg₅, hg₄, hg₃]
    cases c <;> rfl

/-! ### Whose is what -/

/-- The life that a resource belongs to. -/
def Asset.life : Asset → Option ℕ
  | .oneMegaMutex g | .dumbWriteHandler g | .dumbPath g | .classRef g _ | .oneMegaBuffer g =>
    some g
  | .chars _ => none

theorem Globals.life_of_held (ha : a ∈ globals.held g) : a.life = some g := by
  simp only [Globals.held, List.mem_append, List.mem_cons, List.not_mem_nil, or_false] at ha
  rcases ha with ((ha | ha) | ha) | ha
  · rcases ha with rfl | rfl <;> rfl
  · split at ha
    · obtain rfl := List.mem_singleton.mp ha
      rfl
    · cases ha
  · split at ha
    · obtain rfl := List.mem_singleton.mp ha
      rfl
    · cases ha
  · rcases ha with rfl | rfl | rfl | rfl <;> rfl

theorem life_of_acquired (ha : a ∈ acquired g) : a.life = some g := by
  simp only [acquired, List.mem_cons, List.not_mem_nil, or_false] at ha
  rcases ha with rfl | rfl | rfl | rfl | rfl | rfl | rfl <;> rfl

theorem Fate.life_of_leaves (ha : a ∈ fate.leaves g) : a.life = some g := by
  cases fate with
  | failed e => exact life_of_acquired (List.mem_of_mem_take ha)
  | running => cases ha
  | unloaded =>
    obtain rfl := List.mem_singleton.mp ha
    rfl
  | abandoned globals => exact Globals.life_of_held ha

/-- A list with one entry more, by its indices. -/
theorem getElem?_snoc {α : Type*} {xs : List α} {x y : α} {i : ℕ} :
    (xs ++ [x])[i]? = some y ↔ xs[i]? = some y ∨ (i = xs.length ∧ x = y) := by
  rw [List.getElem?_append]
  split
  · rename_i hlt
    exact (or_iff_left fun h => absurd h.1 (Nat.ne_of_lt hlt)).symm
  · rename_i hle
    have hnone : xs[i]? = none := List.getElem?_eq_none (Nat.not_lt.mp hle)
    rw [hnone, List.getElem?_singleton]
    simp only [reduceCtorEq, false_or]
    split
    · rename_i hi
      rw [Option.some.injEq]
      exact (and_iff_right (by omega)).symm
    · rename_i hi
      exact iff_of_false (by rintro ⟨⟩) fun h => hi (by omega)

theorem left_append : Left (lives ++ [fate]) a ↔ Left lives a ∨ a ∈ fate.leaves lives.length := by
  constructor
  · rintro ⟨g, fate', hg, ha⟩
    rcases getElem?_snoc.mp hg with hg | ⟨rfl, rfl⟩
    · exact .inl ⟨g, fate', hg, ha⟩
    · exact .inr ha
  · rintro (⟨g, fate', hg, ha⟩ | ha)
    · exact ⟨g, fate', getElem?_snoc.mpr (.inl hg), ha⟩
    · exact ⟨lives.length, fate, getElem?_snoc.mpr (.inr ⟨rfl, rfl⟩), ha⟩

/-- What is left does not belong to a later life. -/
theorem Left.lt (h : Left lives a) (ha : a.life = some g) : g < lives.length := by
  obtain ⟨g', fate, hg, hmem⟩ := h
  obtain rfl := Option.some.inj (ha.symm.trans (Fate.life_of_leaves hmem))
  exact (List.getElem?_eq_some_iff.mp hg).1

theorem Kept.life_eq {strings : List Bool} (h : Kept strings a) : a.life = none := by
  obtain ⟨k, -, rfl⟩ := h
  rfl

theorem kept_append {strings : List Bool} {released : Bool} :
    Kept (strings ++ [released]) a ↔
      Kept strings a ∨ (released = false ∧ a = .chars strings.length) := by
  constructor
  · rintro ⟨k, hk, rfl⟩
    rcases getElem?_snoc.mp hk with hk | ⟨rfl, hreleased⟩
    · exact .inl ⟨k, hk, rfl⟩
    · exact .inr ⟨hreleased, rfl⟩
  · rintro (⟨k, hk, rfl⟩ | ⟨hreleased, rfl⟩)
    · exact ⟨k, getElem?_snoc.mpr (.inl hk), rfl⟩
    · exact ⟨strings.length, getElem?_snoc.mpr (.inr ⟨rfl, hreleased⟩), rfl⟩

/-! ### While the library is loaded -/

/-- What is live beside the resources of the library that is loaded. -/
def Beside (lives : List Fate) (strings : List Bool) (a : Asset) : Prop :=
  Left lives a ∨ Kept strings a

theorem Beside.life_ne {strings : List Bool} (h : Beside lives strings a) :
    a.life ≠ some lives.length := by
  intro ha
  rcases h with h | h
  · exact absurd (h.lt ha) (Nat.lt_irrefl _)
  · rw [h.life_eq] at ha
    cases ha

/-- The set `L` is what the library has, in a life behind `lives`, and what is beside. -/
def Holds (lives : List Fate) (strings : List Bool) (globals : Globals) (L : Finset Asset) : Prop :=
  ∀ a, a ∈ L ↔ a ∈ globals.held lives.length ∨ Beside lives strings a

section

variable {strings : List Bool}

theorem Process.life_last {current : Option Globals} {crashed : Bool} {strings : List Bool} :
    Process.life ⟨current, crashed, lives ++ [fate], strings⟩ = lives.length := by
  rw [Process.life, List.length_append, List.length_singleton, Nat.add_sub_cancel]

theorem Process.stop_last {current : Option Globals} {crashed : Bool} {strings : List Bool} :
    Process.stop ⟨current, crashed, lives ++ [.running], strings⟩ fate =
      ⟨none, crashed, lives ++ [fate], strings⟩ := by
  rw [Process.stop, Process.life_last, List.set_append_right _ _ le_rfl, Nat.sub_self]
  rfl

theorem Account.holds (h : Account s L) (hc : s.current = some globals) :
    ∃ lives, s.lives = lives ++ [.running] ∧ Holds lives s.strings globals L := by
  obtain ⟨current, crashed, _, strings⟩ := s
  obtain ⟨lives, rfl⟩ := h.running globals hc
  refine ⟨lives, rfl, fun a => ?_⟩
  rw [h.live, Process.Live, left_append, hc, Process.life_last]
  simp only [Fate.leaves, List.not_mem_nil, or_false, Option.some.injEq, exists_eq_left', Beside]
  tauto

theorem Holds.account (h : Holds lives strings globals L)
    (hcl : ∀ c, globals.classes c = true) (crashed : Bool) :
    Account ⟨some globals, crashed, lives ++ [.running], strings⟩ L where
  live a := by
    rw [h, Process.Live, left_append, Process.life_last]
    simp only [Fate.leaves, List.not_mem_nil, or_false, Option.some.injEq, exists_eq_left', Beside]
    tauto
  classes globals' hc := by
    obtain rfl := Option.some.inj hc
    exact hcl
  running _ _ := ⟨lives, rfl⟩

/-- The library is gone, and has left what belongs to its fate. -/
theorem Account.over (hlive : ∀ a, a ∈ L ↔ a ∈ fate.leaves lives.length ∨ Beside lives strings a)
    (crashed : Bool) : Account ⟨none, crashed, lives ++ [fate], strings⟩ L where
  live a := by
    rw [hlive, Process.Live, left_append]
    simp only [Beside, reduceCtorEq, false_and, exists_false, or_false]
    tauto
  classes globals hc := by cases hc
  running globals hc := by cases hc

end

/-! ### What the methods do -/

section

variable {strings : List Bool}

/-- The path of the stop file is given back where it is there. -/
theorem Holds.closeDumbHandlers (h : Holds lives strings globals L) :
    ∃ L', Use.after L (closeDumbHandlersUses lives.length globals) = some L' ∧
      Holds lives strings (closeDumbHandlers globals) L' := by
  unfold Loading.closeDumbHandlers closeDumbHandlersUses
  split
  · rename_i hne
    have hpath : Asset.dumbPath lives.length ∈ L :=
      (h _).mpr (.inl (by simp [Globals.held, hne]))
    refine ⟨L.erase (.dumbPath lives.length), ?_, fun a => ?_⟩
    · rw [Use.after_cons, Use.behind, if_pos hpath]
      rfl
    rw [Finset.mem_erase, h a]
    by_cases ha : a = .dumbPath lives.length
    · subst ha
      have hbeside : ¬Beside lives strings (.dumbPath lives.length) := fun hb => hb.life_ne rfl
      simp [Globals.held, hbeside]
    · simp [Globals.held, hne, ha]
  · exact ⟨L, rfl, h⟩

theorem Globals.mem_held_buffer (h : globals.oneMegaBuffer = false) :
    a ∈ { globals with oneMegaBuffer := true }.held g ↔
      a = .oneMegaBuffer g ∨ a ∈ globals.held g := by
  simp only [Globals.held, h, if_true, Bool.false_eq_true, if_false, List.mem_append,
    List.mem_cons, List.not_mem_nil, or_false]
  simp only [or_assoc, or_comm, or_left_comm]

/-- The buffer is acquired once, and used where it is there. -/
theorem Holds.fill (h : Holds lives strings globals L) (memalign : Bool) :
    ∃ L', Use.after L (fillUses lives.length globals memalign) = some L' ∧
      Holds lives strings (verifyBuffer globals memalign) L' := by
  have hmutex : Use.after L [.touch (.oneMegaMutex lives.length)] = some L :=
    Use.after_touch_one ((h _).mpr (.inl List.mem_cons_self))
  have hwrite : ∀ {globals : Globals} {L : Finset Asset}, Holds lives strings globals L →
      Use.after L (if globals.oneMegaBuffer then [.touch (.oneMegaBuffer lives.length)] else [])
        = some L := by
    intro globals L h
    split
    · rename_i hb
      exact Use.after_touch_one ((h _).mpr (.inl (by simp [Globals.held, hb])))
    · rfl
  unfold fillUses
  by_cases hnew : globals.oneMegaBuffer = false ∧ memalign = true
  · have hbuffer : Asset.oneMegaBuffer lives.length ∉ L := by
      rw [h]
      rintro (hheld | hb)
      · simp [Globals.held, hnew.1] at hheld
      · exact hb.life_ne rfl
    have hholds : Holds lives strings (verifyBuffer globals memalign)
        (insert (.oneMegaBuffer lives.length) L) := by
      intro a
      rw [Finset.mem_insert, h a, verifyBuffer, if_pos hnew, Globals.mem_held_buffer hnew.1,
        or_assoc]
    refine ⟨insert (.oneMegaBuffer lives.length) L, ?_, hholds⟩
    rw [if_pos hnew]
    refine Use.after_trans (Use.after_trans hmutex ?_) (hwrite hholds)
    rw [Use.after_cons, Use.behind, if_neg hbuffer]
    rfl
  · have hsame : verifyBuffer globals memalign = globals := if_neg hnew
    rw [if_neg hnew, hsame]
    exact ⟨L, Use.after_trans (Use.after_trans hmutex rfl) (hwrite h), h⟩

/-- What `JNI_OnUnload` gives back. -/
def given (g : ℕ) (globals : Globals) : List Asset :=
  (if globals.dumbWriteHandler ≠ 0 then [.dumbPath g] else []) ++
    (if globals.oneMegaBuffer then [.oneMegaBuffer g] else []) ++
    [.oneMegaMutex g, .classRef g .runtimeException, .classRef g .ioException,
      .classRef g .submitInfo, .classRef g .libaioContext]

theorem onUnload_eq (hcl : ∀ c, globals.classes c = true) :
    JNI_OnUnload g globals = (given g globals).map .release := by
  unfold JNI_OnUnload given closeDumbHandlersUses
  simp only [List.filter_cons, hcl, if_true, List.filter_nil]
  split <;> split <;> rfl

theorem nodup_given : (given g globals).Nodup := by
  unfold given
  split <;> split <;> simp

theorem mem_held : a ∈ globals.held g ↔ a ∈ given g globals ∨ a = .dumbWriteHandler g := by
  unfold given Globals.held
  simp only [List.mem_append, List.mem_cons, List.not_mem_nil, or_false]
  simp only [or_assoc, or_comm, or_left_comm]

/-- The library is unloaded, and its descriptor is left. -/
theorem Holds.unload (h : Holds lives strings globals L) (hcl : ∀ c, globals.classes c = true)
    (crashed : Bool) :
    ∃ L', Use.after L (JNI_OnUnload lives.length globals) = some L' ∧
      Account ⟨none, crashed, lives ++ [.unloaded], strings⟩ L' := by
  have hgiven : ∀ a ∈ given lives.length globals, a ∈ L := fun a ha =>
    (h a).mpr (.inl (mem_held.mpr (.inl ha)))
  refine ⟨L \ (given lives.length globals).toFinset, ?_, Account.over (fun a => ?_) crashed⟩
  · rw [onUnload_eq hcl]
    exact Use.after_releases nodup_given hgiven
  rw [Finset.mem_sdiff, List.mem_toFinset, h a, mem_held]
  constructor
  · rintro ⟨(hg | rfl) | hb, hno⟩
    · exact absurd hg hno
    · exact .inl List.mem_cons_self
    · exact .inr hb
  · rintro (hf | hb)
    · obtain rfl := List.mem_singleton.mp hf
      refine ⟨.inl (.inr rfl), ?_⟩
      unfold given
      split <;> split <;> simp
    · refine ⟨.inr hb, fun hg => hb.life_ne ?_⟩
      exact Globals.life_of_held (mem_held.mpr (.inl hg))

theorem Holds.classRef (h : Holds lives strings globals L) (c : JavaClass) :
    Asset.classRef lives.length c ∈ L := by
  refine (h _).mpr (.inl ?_)
  cases c <;> simp [Globals.held]

theorem Holds.touched (h : Holds lives strings globals L) (cs : List JavaClass) :
    Use.after L (cs.map fun c => .touch (.classRef lives.length c)) = some L := by
  have hlive : ∀ a ∈ cs.map (Asset.classRef lives.length), a ∈ L := by
    intro a ha
    obtain ⟨c, -, rfl⟩ := List.mem_map.mp ha
    exact h.classRef c
  have htouch := Use.after_touch hlive
  rwa [List.map_map] at htouch

/-- The characters of a path are acquired and used. -/
theorem Holds.pinned (h : Holds lives strings globals L) :
    Asset.chars strings.length ∉ L ∧
      Use.after L [.acquire (.chars strings.length), .touch (.chars strings.length)] =
        some (insert (.chars strings.length) L) := by
  have hno : Asset.chars strings.length ∉ L := by
    rw [h]
    rintro (hheld | hleft | ⟨k, hk, hchars⟩)
    · cases Globals.life_of_held hheld
    · obtain ⟨g, fate, -, hmem⟩ := hleft
      cases Fate.life_of_leaves hmem
    · obtain rfl := Asset.chars.inj hchars
      rw [List.getElem?_eq_none le_rfl] at hk
      cases hk
  refine ⟨hno, ?_⟩
  rw [Use.after_cons, Use.behind, if_neg hno, Option.bind_some, Use.after_cons, Use.behind,
    if_pos (Finset.mem_insert_self _ _)]
  rfl

/-- Characters that are released leave nothing behind. -/
theorem Holds.borrowed (h : Holds lives strings globals L) :
    Use.after L [.acquire (.chars strings.length), .touch (.chars strings.length),
      .release (.chars strings.length)] = some L := by
  obtain ⟨hno, hpin⟩ := h.pinned
  have hrelease : Use.after (insert (.chars strings.length) L)
      [.release (.chars strings.length)] = some L := by
    rw [Use.after_cons, Use.behind, if_pos (Finset.mem_insert_self _ _), Finset.erase_insert hno]
    rfl
  exact Use.after_trans hpin hrelease

/-- Characters that are released are not kept. -/
theorem Holds.released (h : Holds lives strings globals L) :
    Holds lives (strings ++ [true]) globals L := by
  intro a
  rw [h a, Beside, Beside, kept_append]
  simp only [Bool.true_eq_false, false_and, or_false]

/-- Characters that are not released are kept. -/
theorem Holds.kept (h : Holds lives strings globals L) :
    Holds lives (strings ++ [false]) globals (insert (.chars strings.length) L) := by
  intro a
  rw [Finset.mem_insert, h a, Beside, Beside, kept_append]
  simp only [true_and]
  tauto

end

/-! ### Steps and runs -/

/-- The library is loaded, or not. -/
theorem Account.load {crashed : Bool} {strings : List Bool}
    (h : Account ⟨none, crashed, lives, strings⟩ L) (hfd : env.mkstemp ≠ 0)
    (hn : Process.next ⟨none, crashed, lives, strings⟩ (.load env) = some s') :
    ∃ L', Use.after L (Process.usage ⟨none, crashed, lives, strings⟩ (.load env)) = some L' ∧
      Account s' L' := by
  have hlive : ∀ a, a ∈ L ↔ Beside lives strings a := by
    intro a
    rw [h.live, Process.Live]
    simp only [reduceCtorEq, false_and, exists_false, or_false, Beside]
  -- what is live belongs to other lives, so all of this can be acquired
  have hacquire : ∀ n, Use.after L (((acquired lives.length).take n).map .acquire) =
      some (((acquired lives.length).take n).toFinset ∪ L) := by
    intro n
    refine Use.after_acquire (List.Nodup.sublist (List.take_sublist _ _) (by simp [acquired]))
      fun a ha => ?_
    rw [hlive]
    exact fun hb => hb.life_ne (life_of_acquired (List.mem_of_mem_take ha))
  have hends := JNI_OnLoad_ends lives.length env
  simp only [Process.next] at hn
  split at hn
  · cases hn
  simp only [Process.usage]
  cases hload : JNI_OnLoad lives.length env with
  | ok loaded =>
    rw [hload] at hends hn
    obtain ⟨huses, hhandler, hbuffer, hcl⟩ := hends
    obtain rfl := Option.some.inj hn
    -- all seven have been acquired, the path among them as the descriptor is not `0`
    refine ⟨_, (congrArg (Use.after L) huses).trans (hacquire 7), ?_⟩
    refine Holds.account (fun a => ?_) hcl _
    rw [Finset.mem_union, List.mem_toFinset, hlive a]
    simp [Globals.held, hhandler, hfd, hbuffer, acquired]
  | error x =>
    obtain ⟨e, loaded⟩ := x
    rw [hload] at hends hn
    have huses : loaded.uses = _ := hends
    obtain rfl := Option.some.inj hn
    refine ⟨_, (congrArg (Use.after L) huses).trans (hacquire e.reached), ?_⟩
    refine Account.over (fun a => ?_) _
    rw [Finset.mem_union, List.mem_toFinset, hlive a]
    rfl

/-- A native method of a library that is loaded. -/
theorem Process.next_native (hc : s.current = some globals) (hn : s.next l = some s') :
    s.native l globals = s' ∧ s.usage l = s.nativeUses globals l := by
  simp only [Process.next, hc] at hn
  split at hn
  · cases hn
  split at hn
  · rename_i henv
    cases henv
  · cases hn
  · rename_i l _ _ globals' hload heq
    obtain rfl := Option.some.inj heq
    refine ⟨Option.some.inj hn, ?_⟩
    cases l with
    | load env => exact (hload env rfl).elim
    | _ => simp only [Process.usage, hc]
  · rename_i heq
    cases heq

/-- **What a native method does, and what it leaves.** -/
theorem Holds.native {strings : List Bool} (h : Holds lives strings globals L)
    (hcl : ∀ c, globals.classes c = true) (crashed : Bool) (l : Label) :
    ∃ L', Use.after L (Process.nativeUses ⟨some globals, crashed, lives ++ [.running], strings⟩
        globals l) = some L' ∧
      Account (Process.native ⟨some globals, crashed, lives ++ [.running], strings⟩ l globals)
        L' := by
  have hsame := h.account hcl crashed
  cases l with
  | load env => exact ⟨L, rfl, hsame⟩
  | unload getEnv =>
    cases getEnv with
    | false =>
      refine ⟨L, rfl, ?_⟩
      have hleaves : ∀ a, a ∈ L ↔ a ∈ (Fate.abandoned globals).leaves lives.length ∨
          Beside lives strings a := h
      rw [Process.native, Process.stop_last]
      exact Account.over hleaves crashed
    | true =>
      obtain ⟨L', huses, hover⟩ := h.unload hcl crashed
      rw [Process.nativeUses, Process.life_last, Process.native, Process.stop_last]
      exact ⟨L', huses, hover⟩
  | shutdownHook =>
    obtain ⟨L', huses, h'⟩ := h.closeDumbHandlers
    rw [Process.nativeUses, Process.life_last]
    refine ⟨L', huses, h'.account (fun c => ?_) crashed⟩
    unfold Loading.closeDumbHandlers
    split <;> exact hcl c
  | fill memalign =>
    obtain ⟨L', huses, h'⟩ := h.fill memalign
    rw [Process.nativeUses, Process.life_last]
    refine ⟨L', huses, h'.account (fun c => ?_) crashed⟩
    unfold verifyBuffer
    split <;> exact hcl c
  | throwRuntimeException =>
    rw [Process.nativeUses, Process.life_last]
    exact ⟨L, h.touched [.runtimeException], hsame⟩
  | throwIOException =>
    rw [Process.nativeUses, Process.life_last]
    exact ⟨L, h.touched [.ioException], hsame⟩
  | callback =>
    rw [Process.nativeUses, Process.life_last]
    exact ⟨L, h.touched [.submitInfo, .libaioContext], hsame⟩
  | openFile opened =>
    rw [Process.nativeUses, Process.life_last]
    refine ⟨L, Use.after_trans h.borrowed ?_, h.released.account hcl crashed⟩
    cases opened with
    | true => rfl
    | false => exact h.touched [.ioException]
  | getBlockSize stat =>
    rw [Process.nativeUses, Process.life_last]
    cases stat with
    | true => exact ⟨L, h.borrowed, h.released.account hcl crashed⟩
    | false =>
      -- the path is not released where `stat` fails
      exact ⟨_, Use.after_trans h.pinned.2 (h.kept.touched [.ioException]),
        h.kept.account hcl crashed⟩

/-- **Every step keeps the account.** -/
theorem Account.step (h : Account s L) (hl : StdinOpen s l) (hn : s.next l = some s') :
    ∃ L', Use.after L (s.usage l) = some L' ∧ Account s' L' := by
  obtain ⟨current, crashed, lives, strings⟩ := s
  cases current with
  | none =>
    cases l with
    | load env => exact h.load hl hn
    | _ =>
      simp only [Process.next] at hn
      split at hn <;> cases hn
  | some globals =>
    obtain ⟨rfl, huses⟩ := Process.next_native rfl hn
    obtain ⟨before, rfl, hholds⟩ := h.holds rfl
    rw [huses]
    exact hholds.native (h.classes globals rfl) crashed l

/-! ### What remains -/

/-- The library is loaded, whether or not that succeeds. -/
def Label.loads : Label → Bool
  | .load _ => true
  | _ => false

/-- `getBlockSize` of a path for which `stat` fails. -/
def Label.statFails : Label → Bool
  | .getBlockSize stat => !stat
  | _ => false

/-- Each loading begins a life, and each failed `stat` keeps a path. -/
theorem Process.next_counts (hn : s.next l = some s') :
    s'.lives.length = s.lives.length + (if l.loads then 1 else 0) ∧
      s'.strings.count false = s.strings.count false + (if l.statFails then 1 else 0) := by
  simp only [Process.next] at hn
  split at hn
  · cases hn
  split at hn
  · split at hn <;> obtain rfl := Option.some.inj hn <;>
      exact ⟨by simp [Label.loads], by simp [Label.statFails]⟩
  · cases hn
  · rename_i l _ _ globals hno hc
    obtain rfl := Option.some.inj hn
    cases l with
    | load env => exact absurd rfl (hno env)
    | unload getEnv =>
      cases getEnv <;> exact ⟨by simp [native, stop, Label.loads], rfl⟩
    | getBlockSize stat =>
      cases stat <;> exact ⟨rfl, by simp [native, Label.statFails]⟩
    | openFile opened => exact ⟨rfl, by simp [native, Label.statFails]⟩
    | _ => exact ⟨rfl, rfl⟩
  · cases hn

theorem run_counts {P : Process → Label → Prop} (hr : Run Process.next P s ls s') :
    s'.lives.length = s.lives.length + ls.countP Label.loads ∧
      s'.strings.count false = s.strings.count false + ls.countP Label.statFails := by
  induction hr with
  | nil => exact ⟨rfl, rfl⟩
  | cons _ hn _ ih =>
    obtain ⟨hlives, hstrings⟩ := Process.next_counts hn
    rw [List.countP_cons, List.countP_cons]
    omega

/-- The characters that are kept, by their number. -/
theorem card_kept (strings : List Bool) :
    ((Finset.range strings.length).filter fun k => strings[k]? = some false).card =
      strings.count false := by
  induction strings using List.reverseRecOn with
  | nil => rfl
  | append_singleton strings released ih =>
    have hsame : (Finset.range strings.length).filter
        (fun k => (strings ++ [released])[k]? = some false) =
          (Finset.range strings.length).filter fun k => strings[k]? = some false := by
      refine Finset.filter_congr fun k hk => ?_
      rw [List.getElem?_append_left (Finset.mem_range.mp hk)]
    rw [List.length_append, List.length_singleton, Finset.range_add_one, Finset.filter_insert,
      hsame, List.count_append, List.getElem?_concat_length]
    cases released
    · rw [if_pos rfl, Finset.card_insert_of_notMem (by simp), ih]
      rfl
    · rw [if_neg (by simp), ih]
      rfl

/-- What remains where every life has come to a regular end: the descriptors of the stop
files, and the kept characters. -/
theorem Account.card_eq (h : Account s L) (hall : ∀ fate ∈ s.lives, fate = .unloaded) :
    L.card = s.lives.length + s.strings.count false := by
  have hcurrent : s.current = none := by
    rw [Option.eq_none_iff_forall_ne_some]
    intro globals hc
    obtain ⟨lives, hl⟩ := h.running globals hc
    have hrunning := hall .running (by rw [hl]; simp)
    cases hrunning
  have hL : L = (Finset.range s.lives.length).image .dumbWriteHandler ∪
      ((Finset.range s.strings.length).filter fun k => s.strings[k]? = some false).image
        .chars := by
    ext a
    rw [h.live, Process.Live, hcurrent]
    simp only [Finset.mem_union, Finset.mem_image, Finset.mem_range, Finset.mem_filter,
      reduceCtorEq, false_and, exists_false, or_false]
    refine or_congr ⟨?_, ?_⟩ ⟨?_, ?_⟩
    · rintro ⟨g, fate, hg, ha⟩
      obtain rfl := hall fate (List.mem_of_getElem? hg)
      exact ⟨g, (List.getElem?_eq_some_iff.mp hg).1, (List.mem_singleton.mp ha).symm⟩
    · rintro ⟨g, hg, rfl⟩
      refine ⟨g, s.lives[g], List.getElem?_eq_getElem hg, ?_⟩
      rw [hall _ (List.getElem_mem hg)]
      exact List.mem_cons_self
    · rintro ⟨k, hk, rfl⟩
      exact ⟨k, ⟨(List.getElem?_eq_some_iff.mp hk).1, hk⟩, rfl⟩
    · rintro ⟨k, ⟨-, hk⟩, rfl⟩
      exact ⟨k, hk, rfl⟩
  have hdisjoint : Disjoint ((Finset.range s.lives.length).image Asset.dumbWriteHandler)
      (((Finset.range s.strings.length).filter fun k => s.strings[k]? = some false).image
        Asset.chars) := by
    rw [Finset.disjoint_left]
    intro a ha hb
    obtain ⟨g, -, rfl⟩ := Finset.mem_image.mp ha
    obtain ⟨k, -, hk⟩ := Finset.mem_image.mp hb
    cases hk
  rw [hL, Finset.card_union_of_disjoint hdisjoint,
    Finset.card_image_of_injective _ fun _ _ h => Asset.dumbWriteHandler.inj h,
    Finset.card_image_of_injective _ fun _ _ h => Asset.chars.inj h, Finset.card_range, card_kept]

/-- Two lives: in the first a file is filled, a path is looked up that does not exist, and
the shutdown hook comes before the unloading. -/
def twoLives : List Label :=
  [.load {}, .fill true, .callback, .getBlockSize false, .shutdownHook, .unload true,
    .load { mkstemp := 4 }, .openFile false, .unload true]

end Loading

end ArtemisNative
