/-
ArtemisNative/Buffers.lean

Native buffers.

The library hands memory of the C heap to Java: `newAlignedBuffer` wraps a block into a
`ByteBuffer`, `memsetBuffer` clears it, the kernel reads and writes it while a request is
in flight, `freeBuffer` gives it back.  `Heap` has all of this in one memory, with the
addresses at which `posix_memalign` happens to place the blocks, and a flag for accesses
to memory that is not, or no longer, allocated.

`Buffers` is what the callers mean: every buffer has contents of its own, and there are
no addresses.  The two agree in every run in which a buffer is not used behind its
`freeBuffer`, not freed while a request for it is in flight, and not given to the native
methods with a size beyond its capacity (`heap_refines_buffers`): what is read is what
was last written to this buffer, or zero, whoever writes to others, and no access goes
outside of the block of its buffer.  All three conditions are the caller's: the library
checks none of them.
-/
import ArtemisNative.Context
import ArtemisNative.Fill
import ArtemisNative.Lib.Regions
import ArtemisNative.Lib.Simulation

namespace ArtemisNative

namespace Native

open Transition Region Fill

/-! ### Memory and Java objects -/

/-- A `ByteBuffer`, as far as the library looks at it: the address is the one of a
direct buffer, and `GetDirectBufferAddress` of any other one is `NULL`.  `freed` is a
history. -/
structure ByteBuffer where
  address : Option ℕ
  capacity : ℕ
  limit : ℕ
  freed : Bool
  deriving DecidableEq, Repr

/-- The buffer of an `iocb` in flight, with the object it was taken from as a history. -/
structure Transfer where
  opcode : Opcode
  aio_buf : Option ℕ
  nbytes : ℕ
  buffer : ℕ
  deriving DecidableEq, Repr

inductive Thrown
  | runtimeException (message : String)
  /-- with the message in front of `strerror(errno)` -/
  | runtimeExceptionErrorNo (message : String) (errno : ℤ)
  | illegalArgumentException
  | indexOutOfBoundsException
  deriving DecidableEq, Repr

/-- How the last call ended: an object is returned by its number, `none` for `null`. -/
inductive Outcome
  | none
  | returned
  | buffer (b : Option ℕ)
  | byte (v : UInt8)
  | threw (e : Thrown)
  deriving DecidableEq, Repr

/-- The C heap and the Java objects in front of it.  `fault` says that memory outside of
the blocks has been accessed, or something freed that is no block; `leaked` are the
blocks for which no object could be made. -/
structure Heap where
  memory : ℕ → UInt8
  blocks : List Region
  objects : List ByteBuffer
  transfers : List Transfer
  fault : Bool
  leaked : List Region
  outcome : Outcome

inductive Label
  /-- with what `posix_memalign` returns, and whether `NewDirectByteBuffer` succeeds -/
  | newAlignedBuffer (size alignment : ℤ) (memalign : Except ℤ ℕ) (wrapped : Bool)
  /-- `ByteBuffer.allocate` -/
  | allocate (capacity : ℕ)
  | freeBuffer (buffer : Option ℕ)
  /-- the native `memsetBuffer(buffer, size)`, and the method that calls it -/
  | memset (buffer : ℕ) (size : ℤ)
  | memsetBuffer (buffer : ℕ)
  /-- `ByteBuffer.limit`, `put` and `get` -/
  | limit (buffer n : ℕ)
  | put (buffer i : ℕ) (v : UInt8)
  | get (buffer i : ℕ)
  /-- an accepted `submitWrite` or `submitRead`, and its completion -/
  | submit (opcode : Opcode) (buffer : ℕ) (size : ℤ)
  | complete (k : ℕ) (data : List UInt8)

/-- The argument is a `jint`. -/
def IsInt (n : ℤ) : Prop := -2147483648 ≤ n ∧ n < 2147483648

instance (n : ℤ) : Decidable (IsInt n) := inferInstanceAs (Decidable (_ ∧ _))

namespace Heap

def empty (memory : ℕ → UInt8) : Heap where
  memory := memory
  blocks := []
  objects := []
  transfers := []
  fault := false
  leaked := []
  outcome := .none

def say (s : Heap) (o : Outcome) : Heap := { s with outcome := o }

/-- An access to the bytes of `g`. -/
def touch (s : Heap) (g : Region) : Heap :=
  if g.size = 0 ∨ ∃ b ∈ s.blocks, g.Within b then s else { s with fault := true }

def write (s : Heap) (a : ℕ) (vs : List UInt8) : Heap :=
  { s.touch ⟨a, vs.length⟩ with memory := store s.memory a vs }

/-- `free`; it does nothing with `NULL`. -/
def free (s : Heap) : Option ℕ → Heap
  | none => s
  | some p =>
    if ∃ b ∈ s.blocks, b.start = p then
      { s with blocks := s.blocks.filter fun b => b.start ≠ p }
    else
      { s with fault := true }

def addObject (s : Heap) (ob : ByteBuffer) : Heap := { s with objects := s.objects ++ [ob] }

def setObject (s : Heap) (r : ℕ) (ob : ByteBuffer) : Heap :=
  { s with objects := s.objects.set r ob }

/-- The block `g` is one that `posix_memalign` may return: aligned, in the address space
of a process, and not in use. -/
def Admits (s : Heap) (alignment : ℤ) (g : Region) : Prop :=
  alignment ∣ g.start ∧ g.start ≠ 0 ∧ g.start + g.size ≤ 2 ^ 47 ∧ ∀ b ∈ s.blocks, g.Apart b

instance (s : Heap) (alignment : ℤ) (g : Region) : Decidable (s.Admits alignment g) :=
  inferInstanceAs (Decidable (_ ∧ _ ∧ _ ∧ _))

/-! ### The native methods -/

def newAlignedBuffer (s : Heap) (size alignment : ℤ) (memalign : Except ℤ ℕ) (wrapped : Bool) :
    Option Heap :=
  if ¬(IsInt size ∧ IsInt alignment) then
    none
  else if alignment = 0 ∨ (size = -2147483648 ∧ alignment = -1) then
    -- the division ends the process
    none
  else if size.tmod alignment ≠ 0 then
    some (s.say (.threw
      (.runtimeException "Buffer size needs to be aligned to passed argument")))
  else
    match memalign with
    | .error result =>
      if result = 0 then none
      else some (s.say (.threw
        (.runtimeExceptionErrorNo "Can't allocate posix buffer:" result)))
    | .ok buffer =>
      if s.Admits alignment ⟨buffer, toSize size⟩ then
        let s := { s with blocks := ⟨buffer, toSize size⟩ :: s.blocks }
        let s := s.write buffer (List.replicate (toSize size) 0)
        if wrapped then
          some ((s.addObject ⟨some buffer, size.toNat, size.toNat, false⟩).say
            (.buffer (some s.objects.length)))
        else
          some { s with leaked := ⟨buffer, toSize size⟩ :: s.leaked, outcome := .buffer none }
      else
        none

def freeBuffer (s : Heap) : Option ℕ → Option Heap
  | none => some (s.say (.threw (.runtimeException "Null pointer")))
  | some r =>
    match s.objects[r]? with
    | none => none
    | some ob =>
      some (((s.free ob.address).setObject r { ob with freed := ob.address.isSome }).say .returned)

def memset (s : Heap) (r : ℕ) (size : ℤ) : Option Heap :=
  match s.objects[r]? with
  | none => none
  | some ob =>
    if ¬IsInt size then none else
    match ob.address with
    | none =>
      some (s.say (.threw (.runtimeException
        "Invalid Buffer used, libaio requires NativeBuffer instead of Java ByteBuffer")))
    | some buffer => some ((s.write buffer (List.replicate (toSize size) 0)).say .returned)

/-- The method of `LibaioContext`. -/
def memsetBuffer (s : Heap) (r : ℕ) : Option Heap :=
  match s.objects[r]? with
  | none => none
  | some ob => s.memset r ob.limit

/-! ### Java and the kernel -/

def limit (s : Heap) (r n : ℕ) : Option Heap :=
  match s.objects[r]? with
  | none => none
  | some ob =>
    if n ≤ ob.capacity then
      some ((s.setObject r { ob with limit := n }).say .returned)
    else
      some (s.say (.threw .illegalArgumentException))

/-- `put` and `get` of a direct buffer. -/
def put (s : Heap) (r i : ℕ) (v : UInt8) : Option Heap :=
  match s.objects[r]? with
  | none => none
  | some ob =>
    match ob.address with
    | none => none
    | some a =>
      if i < ob.limit then some ((s.write (a + i) [v]).say .returned)
      else some (s.say (.threw .indexOutOfBoundsException))

def get (s : Heap) (r i : ℕ) : Option Heap :=
  match s.objects[r]? with
  | none => none
  | some ob =>
    match ob.address with
    | none => none
    | some a =>
      if i < ob.limit then some ((s.touch ⟨a + i, 1⟩).say (.byte (s.memory (a + i))))
      else some (s.say (.threw .indexOutOfBoundsException))

/-- `io_prep_pwrite` and `io_prep_pread` take the address from `getBuffer`, which is `NULL`
for a buffer that is not direct. -/
def submit (s : Heap) (opcode : Opcode) (r : ℕ) (size : ℤ) : Option Heap :=
  match s.objects[r]? with
  | none => none
  | some ob =>
    if ¬IsInt size then none else
    some { s with
      transfers := s.transfers ++ [⟨opcode, ob.address, toSize size, r⟩], outcome := .returned }

/-- The kernel is done with a request: a read has put `data` into the buffer, a write has
taken the bytes from it, and a request without a buffer fails. -/
def complete (s : Heap) (k : ℕ) (data : List UInt8) : Option Heap :=
  match s.transfers[k]? with
  | none => none
  | some tr =>
    match tr.aio_buf, tr.opcode with
    | none, _ => some { s with transfers := s.transfers.eraseIdx k }
    | some a, .pread =>
      if data.length ≤ tr.nbytes then
        some { s.write a data with transfers := s.transfers.eraseIdx k }
      else none
    | some a, .pwrite => some { s.touch ⟨a, tr.nbytes⟩ with transfers := s.transfers.eraseIdx k }

def next (s : Heap) : Label → Option Heap
  | .newAlignedBuffer size alignment memalign wrapped =>
    s.newAlignedBuffer size alignment memalign wrapped
  | .allocate capacity =>
    some ((s.addObject ⟨none, capacity, capacity, false⟩).say (.buffer (some s.objects.length)))
  | .freeBuffer buffer => s.freeBuffer buffer
  | .memset buffer size => s.memset buffer size
  | .memsetBuffer buffer => s.memsetBuffer buffer
  | .limit buffer n => s.limit buffer n
  | .put buffer i v => s.put buffer i v
  | .get buffer i => s.get buffer i
  | .submit opcode buffer size => s.submit opcode buffer size
  | .complete k data => s.complete k data

/-! ### What the callers have to see to -/

/-- The object is not a buffer that has been freed. -/
def Usable (s : Heap) (r : ℕ) : Prop := ∀ ob ∈ s.objects[r]?, ob.freed = false

/-- The size is within the buffer. -/
def Fits (s : Heap) (r : ℕ) (size : ℤ) : Prop :=
  0 ≤ size ∧ ∀ ob ∈ s.objects[r]?, size ≤ ob.capacity

/-- A buffer is not used when it has been freed, not freed while it is used by the kernel,
and not used beyond its capacity. -/
def Proper (s : Heap) : Label → Prop
  | .freeBuffer (some r) => s.Usable r ∧ ∀ tr ∈ s.transfers, tr.buffer ≠ r
  | .memset r size | .submit _ r size => s.Usable r ∧ s.Fits r size
  | .memsetBuffer r | .put r _ _ | .get r _ => s.Usable r
  | _ => True

instance (s : Heap) (r : ℕ) : Decidable (s.Usable r) :=
  inferInstanceAs (Decidable (∀ ob ∈ s.objects[r]?, ob.freed = false))

instance (s : Heap) (r : ℕ) (size : ℤ) : Decidable (s.Fits r size) :=
  inferInstanceAs (Decidable (0 ≤ size ∧ ∀ ob ∈ s.objects[r]?, size ≤ ob.capacity))

instance (s : Heap) : DecidablePred s.Proper
  | .freeBuffer (some r) =>
    inferInstanceAs (Decidable (s.Usable r ∧ ∀ tr ∈ s.transfers, tr.buffer ≠ r))
  | .memset r size | .submit _ r size => inferInstanceAs (Decidable (s.Usable r ∧ s.Fits r size))
  | .memsetBuffer r | .put r _ _ | .get r _ => inferInstanceAs (Decidable (s.Usable r))
  | .newAlignedBuffer _ _ _ _ | .allocate _ | .freeBuffer none | .limit _ _ | .complete _ _ =>
    isTrue trivial

end Heap

/-! ### Buffers without addresses -/

/-- What a buffer holds: the bytes of a native one, until it is freed. -/
inductive Contents
  | native (bytes : List UInt8)
  | heap
  | freed

structure Buffer where
  contents : Contents
  capacity : ℕ
  limit : ℕ

/-- The buffers as their users see them, and the requests in flight: the kind, the
buffer and the size. -/
structure Buffers where
  buffers : List Buffer
  transfers : List (Opcode × ℕ × ℕ)
  outcome : Outcome

namespace Buffers

def empty : Buffers := ⟨[], [], .none⟩

def say (x : Buffers) (o : Outcome) : Buffers := { x with outcome := o }

def add (x : Buffers) (b : Buffer) : Buffers := { x with buffers := x.buffers ++ [b] }

def set (x : Buffers) (r : ℕ) (b : Buffer) : Buffers := { x with buffers := x.buffers.set r b }

/-- The native buffer `r` gets the bytes `vs` from index `i` on. -/
def write (x : Buffers) (r : ℕ) (b : Buffer) (bytes : List UInt8) (i : ℕ) (vs : List UInt8) :
    Buffers :=
  x.set r { b with contents := .native (overwrite bytes i vs) }

def newAlignedBuffer (x : Buffers) (size alignment : ℤ) (memalign : Except ℤ ℕ)
    (wrapped : Bool) : Option Buffers :=
  if alignment = 0 ∨ (size = -2147483648 ∧ alignment = -1) then
    none
  else if size.tmod alignment ≠ 0 then
    some (x.say (.threw
      (.runtimeException "Buffer size needs to be aligned to passed argument")))
  else
    match memalign with
    | .error result =>
      some (x.say (.threw (.runtimeExceptionErrorNo "Can't allocate posix buffer:" result)))
    | .ok _ =>
      if wrapped then
        let b : Buffer := ⟨.native (List.replicate size.toNat 0), size.toNat, size.toNat⟩
        some ((x.add b).say (.buffer (some x.buffers.length)))
      else
        some (x.say (.buffer none))

/-- A buffer that is freed loses its contents. -/
def freeBuffer (x : Buffers) : Option ℕ → Option Buffers
  | none => some (x.say (.threw (.runtimeException "Null pointer")))
  | some r =>
    match x.buffers[r]? with
    | none => none
    | some b =>
      match b.contents with
      | .native _ => some ((x.set r { b with contents := .freed }).say .returned)
      | .heap => some (x.say .returned)
      | .freed => none

def memset (x : Buffers) (r : ℕ) (size : ℤ) : Option Buffers :=
  match x.buffers[r]? with
  | none => none
  | some b =>
    match b.contents with
    | .native bytes => some ((x.write r b bytes 0 (List.replicate size.toNat 0)).say .returned)
    | .heap =>
      some (x.say (.threw (.runtimeException
        "Invalid Buffer used, libaio requires NativeBuffer instead of Java ByteBuffer")))
    | .freed => none

def memsetBuffer (x : Buffers) (r : ℕ) : Option Buffers :=
  match x.buffers[r]? with
  | none => none
  | some b => x.memset r b.limit

def limit (x : Buffers) (r n : ℕ) : Option Buffers :=
  match x.buffers[r]? with
  | none => none
  | some b =>
    if n ≤ b.capacity then
      some ((x.set r { b with limit := n }).say .returned)
    else
      some (x.say (.threw .illegalArgumentException))

def put (x : Buffers) (r i : ℕ) (v : UInt8) : Option Buffers :=
  match x.buffers[r]? with
  | none => none
  | some b =>
    match b.contents with
    | .native bytes =>
      if i < b.limit then some ((x.write r b bytes i [v]).say .returned)
      else some (x.say (.threw .indexOutOfBoundsException))
    | _ => none

def get (x : Buffers) (r i : ℕ) : Option Buffers :=
  match x.buffers[r]? with
  | none => none
  | some b =>
    match b.contents with
    | .native bytes =>
      if i < b.limit then (bytes[i]?).map fun v => x.say (.byte v)
      else some (x.say (.threw .indexOutOfBoundsException))
    | _ => none

def submit (x : Buffers) (opcode : Opcode) (r : ℕ) (size : ℤ) : Option Buffers :=
  match x.buffers[r]? with
  | none => none
  | some _ =>
    some { x with transfers := x.transfers ++ [(opcode, r, size.toNat)], outcome := .returned }

/-- A read that completes fills the buffer from its start. -/
def complete (x : Buffers) (k : ℕ) (data : List UInt8) : Option Buffers :=
  match x.transfers[k]? with
  | none => none
  | some (opcode, r, nbytes) =>
    let x := { x with transfers := x.transfers.eraseIdx k }
    match x.buffers[r]? with
    | none => none
    | some b =>
      match b.contents, opcode with
      | .native bytes, .pread =>
        if data.length ≤ nbytes then some (x.write r b bytes 0 data) else none
      | .native _, .pwrite => some x
      | .heap, _ => some x
      | .freed, _ => none

def next (x : Buffers) : Label → Option Buffers
  | .newAlignedBuffer size alignment memalign wrapped =>
    x.newAlignedBuffer size alignment memalign wrapped
  | .allocate capacity =>
    some ((x.add ⟨.heap, capacity, capacity⟩).say (.buffer (some x.buffers.length)))
  | .freeBuffer buffer => x.freeBuffer buffer
  | .memset buffer size => x.memset buffer size
  | .memsetBuffer buffer => x.memsetBuffer buffer
  | .limit buffer n => x.limit buffer n
  | .put buffer i v => x.put buffer i v
  | .get buffer i => x.get buffer i
  | .submit opcode buffer size => x.submit opcode buffer size
  | .complete k data => x.complete k data

end Buffers

/-! ### The abstraction -/

/-- The region of a direct buffer. -/
def ByteBuffer.region (ob : ByteBuffer) (a : ℕ) : Region := ⟨a, ob.capacity⟩

def ByteBuffer.view (ob : ByteBuffer) (memory : ℕ → UInt8) : Buffer where
  contents :=
    match ob.address, ob.freed with
    | none, _ => .heap
    | some a, false => .native ((ob.region a).bytes memory)
    | some _, true => .freed
  capacity := ob.capacity
  limit := ob.limit

def Transfer.view (tr : Transfer) : Opcode × ℕ × ℕ := (tr.opcode, tr.buffer, tr.nbytes)

def Heap.view (s : Heap) : Buffers where
  buffers := s.objects.map fun ob => ob.view s.memory
  transfers := s.transfers.map Transfer.view
  outcome := s.outcome

/-! ### The invariant -/

variable {s s' : Heap} {l : Label} {r r' i n a : ℕ} {g g' : Region} {ob : ByteBuffer}
variable {vs : List UInt8} {size alignment : ℤ} {ls : List Label}

/-- `g` is the block of buffer `r`, which has not been freed. -/
def Heap.Backed (s : Heap) (r : ℕ) (g : Region) : Prop :=
  ∃ ob a, s.objects[r]? = some ob ∧ ob.address = some a ∧ ob.freed = false ∧ g = ob.region a

def Heap.OnHeap (s : Heap) (r : ℕ) : Prop := ∃ ob, s.objects[r]? = some ob ∧ ob.address = none

/-- The kernel works inside a buffer that has not been freed, or on none. -/
def Heap.Serves (s : Heap) (tr : Transfer) : Prop :=
  (∃ g, s.Backed tr.buffer g ∧ tr.aio_buf = some g.start ∧ tr.nbytes ≤ g.size) ∨
    (s.OnHeap tr.buffer ∧ tr.aio_buf = none)

def ByteBuffer.Valid (ob : ByteBuffer) : Prop :=
  ob.limit ≤ ob.capacity ∧ (ob.address = none → ob.freed = false)

/-- Every block belongs to one buffer, or is lost; what the kernel works on belongs to a
buffer that has not been freed; and nothing has gone wrong. -/
structure Sound (s : Heap) : Prop where
  apart : s.blocks.Pairwise Region.Apart
  owned : ∀ r g, s.Backed r g → g ∈ s.blocks
  distinct : ∀ r r' g g', s.Backed r g → s.Backed r' g' → r ≠ r' → g.Apart g'
  lost : ∀ g ∈ s.leaked, g ∈ s.blocks ∧ ∀ r g', s.Backed r g' → g.Apart g'
  kept : ∀ g ∈ s.blocks, g ∈ s.leaked ∨ ∃ r, s.Backed r g
  valid : ∀ ob ∈ s.objects, ob.Valid
  transfers : ∀ tr ∈ s.transfers, s.Serves tr
  clean : s.fault = false

theorem Sound.empty (memory : ℕ → UInt8) : Sound (.empty memory) where
  apart := List.Pairwise.nil
  owned := by simp [Heap.Backed, Heap.empty]
  distinct := by simp [Heap.Backed, Heap.empty]
  lost := by simp [Heap.empty]
  kept := by simp [Heap.empty]
  valid := by simp [Heap.empty]
  transfers := by simp [Heap.empty]
  clean := rfl

/-- The blocks stay, and so does whom they belong to. -/
theorem Sound.keep (h : Sound s) (hblocks : s'.blocks = s.blocks) (hleaked : s'.leaked = s.leaked)
    (hfault : s'.fault = s.fault) (hbacked : ∀ r g, s'.Backed r g ↔ s.Backed r g)
    (honHeap : ∀ r, s.OnHeap r → s'.OnHeap r) (hvalid : ∀ ob ∈ s'.objects, ob.Valid)
    (htransfers : ∀ tr ∈ s'.transfers, tr ∈ s.transfers ∨ s'.Serves tr) : Sound s' where
  apart := by rw [hblocks]; exact h.apart
  owned := by
    intro r g hg
    rw [hblocks]
    exact h.owned r g ((hbacked r g).mp hg)
  distinct := by
    intro r r' g g' hg hg'
    exact h.distinct r r' g g' ((hbacked r g).mp hg) ((hbacked r' g').mp hg')
  lost := by
    intro g hg
    rw [hleaked] at hg
    obtain ⟨hmem, hap⟩ := h.lost g hg
    rw [hblocks]
    exact ⟨hmem, fun r g' hg' => hap r g' ((hbacked r g').mp hg')⟩
  kept := by
    intro g hg
    rw [hblocks] at hg
    rw [hleaked]
    rcases h.kept g hg with hlost | ⟨r, hr⟩
    · exact .inl hlost
    · exact .inr ⟨r, (hbacked r g).mpr hr⟩
  valid := hvalid
  transfers := by
    intro tr htr
    rcases htransfers tr htr with hold | hnew
    · rcases h.transfers tr hold with ⟨g, hg, hbuf, hle⟩ | ⟨hheap, hbuf⟩
      · exact .inl ⟨g, (hbacked _ g).mpr hg, hbuf, hle⟩
      · exact .inr ⟨honHeap _ hheap, hbuf⟩
    · exact hnew
  clean := hfault.trans h.clean

/-- What only the memory, the outcome and the end of a request change. -/
theorem Sound.frame (h : Sound s) (hblocks : s'.blocks = s.blocks)
    (hobjects : s'.objects = s.objects) (hleaked : s'.leaked = s.leaked)
    (htransfers : ∀ tr ∈ s'.transfers, tr ∈ s.transfers) (hfault : s'.fault = s.fault) :
    Sound s' := by
  apply h.keep hblocks hleaked hfault
  · intro r g
    rw [Heap.Backed, Heap.Backed, hobjects]
  · intro r hr
    rwa [Heap.OnHeap, hobjects]
  · rw [hobjects]
    exact h.valid
  · exact fun tr htr => .inl (htransfers tr htr)

theorem Sound.say (h : Sound s) (o : Outcome) : Sound (s.say o) :=
  h.frame rfl rfl rfl (fun _ => id) rfl

/-! ### Accesses -/

theorem touch_eq (hmem : g ∈ s.blocks) (hin : g'.Within g) : s.touch g' = s := by
  rw [Heap.touch, if_pos (.inr ⟨g, hmem, hin⟩)]

theorem write_eq (hmem : g ∈ s.blocks) (hin : Within ⟨a, vs.length⟩ g) :
    s.write a vs = { s with memory := store s.memory a vs } := by
  rw [Heap.write, touch_eq hmem hin]

theorem within_of_le (h : i + n ≤ g.size) : Within ⟨g.start + i, n⟩ g :=
  ⟨Nat.le_add_right _ _, by show g.start + i + n ≤ g.start + g.size; omega⟩

theorem Sound.write (h : Sound s) (hg : s.Backed r g) (hi : i + vs.length ≤ g.size) :
    Sound (s.write (g.start + i) vs) := by
  rw [write_eq (h.owned r g hg) (within_of_le hi)]
  exact h.frame rfl rfl rfl (fun _ => id) rfl

/-- **A write to one buffer** changes its contents, and those of no other. -/
theorem Sound.view_write (h : Sound s) (hob : s.objects[r]? = some ob)
    (ha : ob.address = some a) (hfreed : ob.freed = false) (hi : i + vs.length ≤ ob.capacity) :
    (s.write (a + i) vs).view =
      s.view.write r (ob.view s.memory) ((ob.region a).bytes s.memory) i vs := by
  have hg : s.Backed r (ob.region a) := ⟨ob, a, hob, ha, hfreed, rfl⟩
  rw [show a + i = (ob.region a).start + i from rfl,
    write_eq (h.owned r _ hg) (within_of_le (g := ob.region a) hi)]
  have hbuffers : s.objects.map (fun ob => ob.view (store s.memory (a + i) vs)) =
      (s.objects.map fun ob => ob.view s.memory).set r { ob.view s.memory with
        contents := .native (overwrite ((ob.region a).bytes s.memory) i vs) } := by
    apply List.ext_getElem?
    intro j
    rw [List.getElem?_set, List.getElem?_map, List.getElem?_map]
    by_cases hrj : r = j
    · subst hrj
      obtain ⟨hlt, -⟩ := List.getElem?_eq_some_iff.mp hob
      rw [if_pos rfl, if_pos (by rwa [List.length_map]), hob]
      simp only [Option.map_some, ByteBuffer.view, ha, hfreed]
      rw [show a + i = (ob.region a).start + i from rfl, bytes_store hi]
    · rw [if_neg hrj]
      cases hj : s.objects[j]? with
      | none => rfl
      | some ob' =>
        rw [Option.map_some, Option.map_some, ByteBuffer.view, ByteBuffer.view]
        cases ha' : ob'.address with
        | none => rfl
        | some a' =>
          cases hfreed' : ob'.freed with
          | true => rfl
          | false =>
            -- the two blocks are apart
            have hap := h.distinct r j _ _ hg ⟨ob', a', hj, ha', hfreed', rfl⟩ hrj
            have hout := Within.outside (within_of_le (g := ob.region a) hi) hap
            have hsame : (ob'.region a').bytes (store s.memory (a + i) vs) =
                (ob'.region a').bytes s.memory := bytes_store_of_apart hout
            simp only [hsame]
  exact congrArg (fun bs => (⟨bs, s.transfers.map Transfer.view, s.outcome⟩ : Buffers)) hbuffers

/-! ### New objects, and objects that change -/

theorem getElem?_view (s : Heap) (r : ℕ) :
    s.view.buffers[r]? = (s.objects[r]?).map fun ob => ob.view s.memory :=
  List.getElem?_map ..

theorem view_setObject (s : Heap) (r : ℕ) (ob : ByteBuffer) :
    (s.setObject r ob).view = s.view.set r (ob.view s.memory) := by
  simp only [Heap.view, Heap.setObject, Buffers.set, List.map_set]

theorem getElem?_setObject (hlt : r < s.objects.length) (ob : ByteBuffer) (j : ℕ) :
    (s.setObject r ob).objects[j]? = if r = j then some ob else s.objects[j]? := by
  rw [Heap.setObject, List.getElem?_set]
  by_cases hrj : r = j
  · rw [if_pos hrj, if_pos hrj, if_pos (hrj ▸ hlt)]
  · rw [if_neg hrj, if_neg hrj]

/-- An object that changes only its limit. -/
theorem Sound.setLimit (h : Sound s) (hob : s.objects[r]? = some ob) (hn : n ≤ ob.capacity) :
    Sound (s.setObject r { ob with limit := n }) := by
  have hlt : r < s.objects.length := (List.getElem?_eq_some_iff.mp hob).1
  apply @Sound.keep s (s.setObject r { ob with limit := n }) h rfl rfl rfl
  · intro j g
    rw [Heap.Backed, Heap.Backed, getElem?_setObject hlt]
    split
    · rename_i hrj
      subst hrj
      rw [hob]
      constructor
      · rintro ⟨ob', a, hj, ha, hfreed, rfl⟩
        obtain rfl := Option.some.inj hj
        exact ⟨ob, a, rfl, ha, hfreed, rfl⟩
      · rintro ⟨ob', a, hj, ha, hfreed, rfl⟩
        obtain rfl := Option.some.inj hj
        exact ⟨_, a, rfl, ha, hfreed, rfl⟩
    · rfl
  · rintro j ⟨ob', hj, hnone⟩
    rw [Heap.OnHeap, getElem?_setObject hlt]
    split
    · rename_i hrj
      subst hrj
      obtain rfl := Option.some.inj (hob.symm.trans hj)
      exact ⟨_, rfl, hnone⟩
    · exact ⟨ob', hj, hnone⟩
  · intro ob' hmem
    rcases List.mem_or_eq_of_mem_set hmem with hold | rfl
    · exact h.valid ob' hold
    · exact ⟨hn, (h.valid ob (List.mem_of_getElem? hob)).2⟩
  · exact fun tr htr => .inl htr

/-- `free` of a block that is in use. -/
theorem free_eq (hmem : g ∈ s.blocks) :
    s.free (some g.start) = { s with blocks := s.blocks.filter fun b => b.start ≠ g.start } := by
  rw [Heap.free, if_pos ⟨g, hmem, rfl⟩]

/-- A buffer that the kernel does not use is freed. -/
theorem Sound.setFreed (h : Sound s) (hob : s.objects[r]? = some ob) (ha : ob.address = some a)
    (hfreed : ob.freed = false) (hunused : ∀ tr ∈ s.transfers, tr.buffer ≠ r) :
    Sound ((s.free (some a)).setObject r { ob with freed := true }) := by
  have hlt : r < s.objects.length := (List.getElem?_eq_some_iff.mp hob).1
  have hmine : s.Backed r (ob.region a) := ⟨ob, a, hob, ha, hfreed, rfl⟩
  have hin := h.owned r _ hmine
  rw [show a = (ob.region a).start from rfl, free_eq hin]
  -- the other buffers have what they had
  have hbacked : ∀ j g, ({ s with
      blocks := s.blocks.filter fun b => b.start ≠ (ob.region a).start }.setObject r
        { ob with freed := true } : Heap).Backed j g ↔ j ≠ r ∧ s.Backed j g := by
    intro j g
    rw [Heap.Backed, Heap.Backed, getElem?_setObject (s := { s with
      blocks := s.blocks.filter fun b => b.start ≠ (ob.region a).start }) hlt]
    split
    · rename_i hrj
      refine iff_of_false ?_ fun hj => hj.1 hrj.symm
      rintro ⟨ob', a', hj, -, hno, -⟩
      obtain rfl := Option.some.inj hj
      cases hno
    · rename_i hrj
      exact ⟨fun hj => ⟨Ne.symm hrj, hj⟩, fun hj => hj.2⟩
  have hstart : ∀ j g, j ≠ r → s.Backed j g → g.start ≠ (ob.region a).start :=
    fun j g hj hg => (h.distinct j r g _ hg hmine hj).1
  have hfilter : ∀ g, g ∈ s.blocks.filter (fun b => b.start ≠ (ob.region a).start) ↔
      g ∈ s.blocks ∧ g.start ≠ (ob.region a).start := fun g => by
    rw [List.mem_filter, decide_eq_true_iff]
  constructor
  case apart => exact h.apart.filter _
  case owned =>
    intro j g hg
    obtain ⟨hj, hg⟩ := (hbacked j g).mp hg
    exact (hfilter g).mpr ⟨h.owned j g hg, hstart j g hj hg⟩
  case distinct =>
    intro j j' g g' hg hg'
    exact h.distinct j j' g g' ((hbacked j g).mp hg).2 ((hbacked j' g').mp hg').2
  case lost =>
    intro g hg
    obtain ⟨hmem, hap⟩ := h.lost g hg
    exact ⟨(hfilter g).mpr ⟨hmem, (hap r _ hmine).1⟩,
      fun j g' hg' => hap j g' ((hbacked j g').mp hg').2⟩
  case kept =>
    intro g hg
    obtain ⟨hmem, hne⟩ := (hfilter g).mp hg
    rcases h.kept g hmem with hlost | ⟨j, hj⟩
    · exact .inl hlost
    · refine .inr ⟨j, (hbacked j g).mpr ⟨?_, hj⟩⟩
      rintro rfl
      obtain ⟨ob', a', hob', ha', -, rfl⟩ := hj
      obtain rfl := Option.some.inj (hob.symm.trans hob')
      obtain rfl := Option.some.inj (ha.symm.trans ha')
      exact hne rfl
  case valid =>
    intro ob' hmem
    rcases List.mem_or_eq_of_mem_set hmem with hold | rfl
    · exact h.valid ob' hold
    · refine ⟨(h.valid ob (List.mem_of_getElem? hob)).1, fun hnone => ?_⟩
      rw [show ob.address = none from hnone] at ha
      cases ha
  case transfers =>
    intro tr htr
    have hne := hunused tr htr
    rcases h.transfers tr htr with ⟨g, hg, hbuf, hle⟩ | ⟨⟨ob', hj, hnone⟩, hbuf⟩
    · exact .inl ⟨g, (hbacked _ g).mpr ⟨hne, hg⟩, hbuf, hle⟩
    · refine .inr ⟨⟨ob', ?_, hnone⟩, hbuf⟩
      rw [getElem?_setObject (s := { s with
        blocks := s.blocks.filter fun b => b.start ≠ (ob.region a).start }) hlt, if_neg hne.symm]
      exact hj
  case clean => exact h.clean

theorem getElem?_addObject (s : Heap) (ob : ByteBuffer) (j : ℕ) :
    (s.addObject ob).objects[j]? = if j = s.objects.length then some ob else s.objects[j]? := by
  rw [Heap.addObject, List.getElem?_append]
  rcases Nat.lt_trichotomy j s.objects.length with hlt | heq | hgt
  · rw [if_pos hlt, if_neg (by omega)]
  · rw [if_neg (by omega), if_pos heq, heq, Nat.sub_self]
    rfl
  · rw [if_neg (by omega), if_neg (by omega), List.getElem?_eq_none (by simp; omega),
      List.getElem?_eq_none (by omega)]

/-- A new object on the Java heap. -/
theorem Sound.addObject (h : Sound s) (hnone : ob.address = none) (hvalid : ob.Valid) :
    Sound (s.addObject ob) := by
  apply @Sound.keep s (s.addObject ob) h rfl rfl rfl
  · intro j g
    rw [Heap.Backed, Heap.Backed, getElem?_addObject]
    split
    · rename_i hj
      refine iff_of_false ?_ ?_
      · rintro ⟨ob', a, hob', ha, -⟩
        obtain rfl := Option.some.inj hob'
        rw [hnone] at ha
        cases ha
      · rintro ⟨ob', a, hob', -⟩
        rw [List.getElem?_eq_none (by omega)] at hob'
        cases hob'
    · rfl
  · rintro j ⟨ob', hj, hno⟩
    refine ⟨ob', ?_, hno⟩
    rw [getElem?_addObject, if_neg, hj]
    rintro rfl
    rw [List.getElem?_eq_none (Nat.le_refl _)] at hj
    cases hj
  · intro ob' hmem
    rcases List.mem_append.mp hmem with hold | hnew
    · exact h.valid ob' hold
    · obtain rfl := List.mem_singleton.mp hnew
      exact hvalid
  · exact fun tr htr => .inl htr

/-! ### A new block -/

theorem toSize_of_nonneg (hint : IsInt size) (hpos : 0 ≤ size) : toSize size = size.toNat := by
  have hhi := hint.2
  rw [toSize, Int.emod_eq_of_lt hpos (by omega)]

/-- The block of a `jint` fits into the address space only if it is not negative. -/
theorem nonneg_of_admitted (hint : IsInt size) (hle : a + toSize size ≤ 2 ^ 47) : 0 ≤ size := by
  obtain ⟨hlo, hhi⟩ := hint
  by_contra hneg
  have hmod : size % 2 ^ 64 = size + 2 ^ 64 := by omega
  rw [toSize, hmod] at hle
  omega

/-- The memory of a new block is cleared: no other buffer has a byte of it. -/
theorem Sound.view_clear (h : Sound s) (hapart : ∀ b ∈ s.blocks, g.Apart b) :
    s.objects.map (fun ob => ob.view (store s.memory g.start (List.replicate g.size 0))) =
      s.objects.map fun ob => ob.view s.memory := by
  apply List.ext_getElem?
  intro j
  rw [List.getElem?_map, List.getElem?_map]
  cases hj : s.objects[j]? with
  | none => rfl
  | some ob =>
    rw [Option.map_some, Option.map_some, ByteBuffer.view, ByteBuffer.view]
    cases ha : ob.address with
    | none => rfl
    | some a =>
      cases hfreed : ob.freed with
      | true => rfl
      | false =>
        have hap := hapart _ (h.owned j _ ⟨ob, a, hj, ha, hfreed, rfl⟩)
        have hsame : (ob.region a).bytes (store s.memory g.start (List.replicate g.size 0)) =
            (ob.region a).bytes s.memory := by
          apply bytes_store_of_apart
          rw [List.length_replicate]
          exact hap.2
        simp only [hsame]

/-- A block that becomes the one of a new buffer. -/
theorem Sound.newBuffer (h : Sound s) (hapart : ∀ b ∈ s.blocks, g.Apart b) (m : ℕ → UInt8) :
    Sound ({ s with blocks := g :: s.blocks, memory := m }.addObject
      ⟨some g.start, g.size, g.size, false⟩ : Heap) := by
  -- the new buffer has the new block, and the others have what they had
  have hbacked : ∀ j g', ({ s with blocks := g :: s.blocks, memory := m }.addObject
      ⟨some g.start, g.size, g.size, false⟩ : Heap).Backed j g' ↔
        (j = s.objects.length ∧ g' = g) ∨ s.Backed j g' := by
    intro j g'
    rw [Heap.Backed, getElem?_addObject]
    constructor
    · rintro ⟨ob, a, hj, ha, hfreed, rfl⟩
      split at hj
      · rename_i heq
        obtain rfl := Option.some.inj hj
        obtain rfl := Option.some.inj ha
        exact .inl ⟨heq, rfl⟩
      · exact .inr ⟨ob, a, hj, ha, hfreed, rfl⟩
    · rintro (⟨rfl, rfl⟩ | ⟨ob, a, hj, ha, hfreed, rfl⟩)
      · exact ⟨_, g'.start, if_pos rfl, rfl, rfl, rfl⟩
      · refine ⟨ob, a, ?_, ha, hfreed, rfl⟩
        rw [if_neg, hj]
        rintro rfl
        rw [List.getElem?_eq_none (Nat.le_refl _)] at hj
        cases hj
  constructor
  case apart => exact List.pairwise_cons.mpr ⟨hapart, h.apart⟩
  case owned =>
    intro j g' hg'
    rcases (hbacked j g').mp hg' with ⟨-, rfl⟩ | hold
    · exact List.mem_cons_self
    · exact List.mem_cons_of_mem _ (h.owned j g' hold)
  case distinct =>
    intro j j' g₁ g₂ hg₁ hg₂ hne
    rcases (hbacked j g₁).mp hg₁ with ⟨rfl, rfl⟩ | hold₁ <;>
      rcases (hbacked j' g₂).mp hg₂ with ⟨rfl, rfl⟩ | hold₂
    · exact absurd rfl hne
    · exact hapart _ (h.owned _ _ hold₂)
    · exact (hapart _ (h.owned _ _ hold₁)).symm
    · exact h.distinct j j' g₁ g₂ hold₁ hold₂ hne
  case lost =>
    intro g₁ hg₁
    obtain ⟨hmem, hap⟩ := h.lost g₁ hg₁
    refine ⟨List.mem_cons_of_mem _ hmem, fun j g' hg' => ?_⟩
    rcases (hbacked j g').mp hg' with ⟨-, rfl⟩ | hold
    · exact (hapart g₁ hmem).symm
    · exact hap j g' hold
  case kept =>
    intro g₁ hg₁
    rcases List.mem_cons.mp hg₁ with rfl | hold
    · exact .inr ⟨_, (hbacked _ g₁).mpr (.inl ⟨rfl, rfl⟩)⟩
    · rcases h.kept g₁ hold with hlost | ⟨j, hj⟩
      · exact .inl hlost
      · exact .inr ⟨j, (hbacked j g₁).mpr (.inr hj)⟩
  case valid =>
    intro ob' hmem
    rcases List.mem_append.mp hmem with hold | hnew
    · exact h.valid ob' hold
    · obtain rfl := List.mem_singleton.mp hnew
      exact ⟨Nat.le_refl _, by rintro ⟨⟩⟩
  case transfers =>
    intro tr htr
    rcases h.transfers tr htr with ⟨g', hg', hbuf, hle⟩ | ⟨⟨ob', hj, hnone⟩, hbuf⟩
    · exact .inl ⟨g', (hbacked _ g').mpr (.inr hg'), hbuf, hle⟩
    · refine .inr ⟨⟨ob', ?_, hnone⟩, hbuf⟩
      rw [getElem?_addObject, if_neg, hj]
      intro heq
      rw [heq, List.getElem?_eq_none (Nat.le_refl _)] at hj
      cases hj
  case clean => exact h.clean

/-- A block that is lost. -/
theorem Sound.newLost (h : Sound s) (hapart : ∀ b ∈ s.blocks, g.Apart b) (m : ℕ → UInt8)
    (o : Outcome) :
    Sound { s with
      blocks := g :: s.blocks, memory := m, leaked := g :: s.leaked, outcome := o } where
  apart := List.pairwise_cons.mpr ⟨hapart, h.apart⟩
  owned := fun j g' hg' => List.mem_cons_of_mem _ (h.owned j g' hg')
  distinct := h.distinct
  lost := by
    intro g₁ hg₁
    rcases List.mem_cons.mp hg₁ with rfl | hold
    · exact ⟨List.mem_cons_self, fun j g' hg' => hapart g' (h.owned j g' hg')⟩
    · obtain ⟨hmem, hap⟩ := h.lost g₁ hold
      exact ⟨List.mem_cons_of_mem _ hmem, hap⟩
  kept := by
    intro g₁ hg₁
    rcases List.mem_cons.mp hg₁ with rfl | hold
    · exact .inl List.mem_cons_self
    · exact (h.kept g₁ hold).imp_left (List.mem_cons_of_mem _)
  valid := h.valid
  transfers := h.transfers
  clean := h.clean

/-! ### Every step -/

theorem Sound.newAlignedBuffer {memalign : Except ℤ ℕ} {wrapped : Bool} (h : Sound s)
    (hn : s.newAlignedBuffer size alignment memalign wrapped = some s') :
    Sound s' ∧ s.view.newAlignedBuffer size alignment memalign wrapped = some s'.view := by
  unfold Heap.newAlignedBuffer at hn
  unfold Buffers.newAlignedBuffer
  split at hn
  · cases hn
  rename_i hint
  split at hn
  · cases hn
  rename_i hzero
  rw [if_neg hzero]
  split at hn
  · rename_i hmod
    obtain rfl := Option.some.inj hn
    rw [if_pos hmod]
    exact ⟨h.say _, rfl⟩
  rename_i hmod
  rw [if_neg hmod]
  cases memalign with
  | error result =>
    simp only at hn ⊢
    split at hn
    · cases hn
    · obtain rfl := Option.some.inj hn
      exact ⟨h.say _, rfl⟩
  | ok buffer =>
    simp only at hn ⊢
    split at hn
    · rename_i hadm
      obtain ⟨-, -, hle, hapart⟩ := hadm
      have hsize : toSize size = size.toNat :=
        toSize_of_nonneg (not_not.mp hint).1 (nonneg_of_admitted (not_not.mp hint).1 hle)
      rw [hsize] at hn hapart
      rw [write_eq (g := ⟨buffer, size.toNat⟩) List.mem_cons_self
        (by rw [List.length_replicate]; exact Within.refl _)] at hn
      -- clearing a block apart from the others is not seen by them
      have hclear := h.view_clear hapart
      cases wrapped with
      | true =>
        obtain rfl := Option.some.inj hn
        refine ⟨(h.newBuffer hapart _).say _, ?_⟩
        have hnew : (ByteBuffer.region ⟨some buffer, size.toNat, size.toNat, false⟩ buffer).bytes
            (store s.memory buffer (List.replicate size.toNat 0)) =
              List.replicate size.toNat 0 := by
          have hlen : 0 + (List.replicate size.toNat (0 : UInt8)).length ≤ size.toNat := by
            rw [List.length_replicate, Nat.zero_add]
          have hstored := bytes_store (m := s.memory) (g := ⟨buffer, size.toNat⟩) hlen
          rw [overwrite_all (by rw [List.length_replicate, length_bytes])] at hstored
          exact hstored
        simp only [Heap.view, Heap.addObject, Heap.say, List.map_append, List.map_cons,
          List.map_nil, Buffers.add, Buffers.say, if_true, List.length_map]
        rw [show List.map (fun ob => ByteBuffer.view ob (store s.memory buffer
          (List.replicate size.toNat 0))) s.objects = _ from hclear]
        simp only [ByteBuffer.view, hnew]
      | false =>
        obtain rfl := Option.some.inj hn
        refine ⟨h.newLost hapart _ _, ?_⟩
        simp only [Heap.view, Buffers.say, Bool.false_eq_true, if_false]
        rw [show List.map (fun ob => ByteBuffer.view ob (store s.memory buffer
          (List.replicate size.toNat 0))) s.objects = _ from hclear]
    · cases hn

theorem setObject_self (hob : s.objects[r]? = some ob) : s.setObject r ob = s := by
  obtain ⟨hlt, rfl⟩ := List.getElem?_eq_some_iff.mp hob
  rw [Heap.setObject, List.set_getElem_self]

theorem Sound.freeBuffer {buffer : Option ℕ} (h : Sound s) (hl : s.Proper (.freeBuffer buffer))
    (hn : s.freeBuffer buffer = some s') :
    Sound s' ∧ s.view.freeBuffer buffer = some s'.view := by
  cases buffer with
  | none =>
    obtain rfl := Option.some.inj hn
    exact ⟨h.say _, rfl⟩
  | some r =>
    obtain ⟨husable, hunused⟩ := hl
    simp only [Heap.freeBuffer] at hn
    simp only [Buffers.freeBuffer, getElem?_view]
    cases hob : s.objects[r]? with
    | none =>
      rw [hob] at hn
      cases hn
    | some ob =>
      obtain ⟨address, capacity, lim, freed⟩ := ob
      obtain rfl : freed = false := husable _ hob
      rw [hob] at hn
      obtain rfl := Option.some.inj hn
      cases address with
      | none =>
        -- `free(NULL)`
        have hsame : (s.free none).setObject r ⟨none, capacity, lim, (none : Option ℕ).isSome⟩ = s :=
          setObject_self hob
        rw [hsame]
        exact ⟨h.say _, rfl⟩
      | some a =>
        have hin : (⟨a, capacity⟩ : Region) ∈ s.blocks := h.owned r _ ⟨_, a, hob, rfl, rfl, rfl⟩
        have hview : ((s.free (some a)).setObject r ⟨some a, capacity, lim, true⟩).view =
            s.view.set r ⟨.freed, capacity, lim⟩ := by
          rw [view_setObject, show a = (⟨a, capacity⟩ : Region).start from rfl, free_eq hin]
          rfl
        refine ⟨(h.setFreed hob rfl rfl hunused).say _, ?_⟩
        show some ((s.view.set r ⟨.freed, capacity, lim⟩).say .returned) =
          some (((s.free (some a)).setObject r ⟨some a, capacity, lim, true⟩).view.say .returned)
        rw [hview]

theorem Sound.memset (h : Sound s) (husable : s.Usable r) (hfits : s.Fits r size)
    (hn : s.memset r size = some s') : Sound s' ∧ s.view.memset r size = some s'.view := by
  simp only [Heap.memset] at hn
  simp only [Buffers.memset, getElem?_view]
  cases hob : s.objects[r]? with
  | none =>
    rw [hob] at hn
    cases hn
  | some ob =>
    have hfreed : ob.freed = false := husable ob hob
    have hle : size ≤ ob.capacity := hfits.2 ob hob
    rw [hob] at hn
    simp only at hn
    split at hn
    · cases hn
    rename_i hint
    rw [toSize_of_nonneg (not_not.mp hint) hfits.1] at hn
    cases ha : ob.address with
    | none =>
      rw [ha] at hn
      obtain rfl := Option.some.inj hn
      refine ⟨h.say _, ?_⟩
      simp only [Option.map_some, ByteBuffer.view, ha]
      rfl
    | some a =>
      rw [ha] at hn
      obtain rfl := Option.some.inj hn
      have hi : 0 + (List.replicate size.toNat (0 : UInt8)).length ≤ ob.capacity := by
        rw [List.length_replicate]
        omega
      refine ⟨(h.write ⟨ob, a, hob, ha, hfreed, rfl⟩ hi).say _, ?_⟩
      have hview := h.view_write hob ha hfreed hi
      simp only [Option.map_some, ByteBuffer.view, ha, hfreed]
      show some ((s.view.write r _ _ 0 _).say .returned) =
        some ((s.write (a + 0) (List.replicate size.toNat 0)).view.say .returned)
      rw [hview]
      simp only [ByteBuffer.view, ha, hfreed]

theorem Sound.memsetBuffer (h : Sound s) (husable : s.Usable r)
    (hn : s.memsetBuffer r = some s') : Sound s' ∧ s.view.memsetBuffer r = some s'.view := by
  simp only [Heap.memsetBuffer] at hn
  simp only [Buffers.memsetBuffer, getElem?_view]
  cases hob : s.objects[r]? with
  | none =>
    rw [hob] at hn
    cases hn
  | some ob =>
    rw [hob] at hn
    have hlimit := (h.valid ob (List.mem_of_getElem? hob)).1
    apply h.memset husable ⟨Int.natCast_nonneg _, fun ob' hob' => ?_⟩ hn
    obtain rfl := Option.some.inj (hob.symm.trans hob')
    exact Int.ofNat_le.mpr hlimit

theorem Sound.limit (h : Sound s) (hn : s.limit r n = some s') :
    Sound s' ∧ s.view.limit r n = some s'.view := by
  simp only [Heap.limit] at hn
  simp only [Buffers.limit, getElem?_view]
  cases hob : s.objects[r]? with
  | none =>
    rw [hob] at hn
    cases hn
  | some ob =>
    rw [hob] at hn
    simp only at hn
    simp only [Option.map_some, ByteBuffer.view]
    split at hn
    · rename_i hle
      obtain rfl := Option.some.inj hn
      rw [if_pos hle]
      refine ⟨(h.setLimit hob hle).say _, ?_⟩
      show some ((s.view.set r _).say .returned) =
        some ((s.setObject r { ob with limit := n }).view.say .returned)
      rw [view_setObject]
      rfl
    · rename_i hle
      obtain rfl := Option.some.inj hn
      rw [if_neg hle]
      exact ⟨h.say _, rfl⟩

theorem Sound.put {v : UInt8} (h : Sound s) (husable : s.Usable r)
    (hn : s.put r i v = some s') : Sound s' ∧ s.view.put r i v = some s'.view := by
  simp only [Heap.put] at hn
  simp only [Buffers.put, getElem?_view]
  cases hob : s.objects[r]? with
  | none =>
    rw [hob] at hn
    cases hn
  | some ob =>
    have hfreed : ob.freed = false := husable ob hob
    have hlimit := (h.valid ob (List.mem_of_getElem? hob)).1
    rw [hob] at hn
    cases ha : ob.address with
    | none =>
      simp only [ha] at hn
      cases hn
    | some a =>
      simp only [ha] at hn
      simp only [Option.map_some, ByteBuffer.view, ha, hfreed]
      split at hn
      · rename_i hlt
        obtain rfl := Option.some.inj hn
        have hi : i + [v].length ≤ ob.capacity := by
          rw [List.length_singleton]
          omega
        rw [if_pos hlt]
        refine ⟨(h.write ⟨ob, a, hob, ha, hfreed, rfl⟩ hi).say _, ?_⟩
        have hview := h.view_write hob ha hfreed hi
        show some ((s.view.write r _ _ i [v]).say .returned) =
          some ((s.write (a + i) [v]).view.say .returned)
        rw [hview]
        simp only [ByteBuffer.view, ha, hfreed]
      · rename_i hlt
        obtain rfl := Option.some.inj hn
        rw [if_neg hlt]
        exact ⟨h.say _, rfl⟩

theorem Sound.get (h : Sound s) (husable : s.Usable r) (hn : s.get r i = some s') :
    Sound s' ∧ s.view.get r i = some s'.view := by
  simp only [Heap.get] at hn
  simp only [Buffers.get, getElem?_view]
  cases hob : s.objects[r]? with
  | none =>
    rw [hob] at hn
    cases hn
  | some ob =>
    have hfreed : ob.freed = false := husable ob hob
    have hlimit := (h.valid ob (List.mem_of_getElem? hob)).1
    rw [hob] at hn
    cases ha : ob.address with
    | none =>
      simp only [ha] at hn
      cases hn
    | some a =>
      simp only [ha] at hn
      simp only [Option.map_some, ByteBuffer.view, ha, hfreed]
      split at hn
      · rename_i hlt
        have hin := h.owned r _ ⟨ob, a, hob, ha, hfreed, rfl⟩
        have htouch : s.touch ⟨a + i, 1⟩ = s :=
          touch_eq hin (within_of_le (g := ob.region a) (by show i + 1 ≤ ob.capacity; omega))
        rw [htouch] at hn
        obtain rfl := Option.some.inj hn
        refine ⟨h.say _, ?_⟩
        rw [if_pos hlt, getElem?_bytes, if_pos (by show i < ob.capacity; omega)]
        rfl
      · rename_i hlt
        obtain rfl := Option.some.inj hn
        rw [if_neg hlt]
        exact ⟨h.say _, rfl⟩

theorem Sound.submit {opcode : Opcode} (h : Sound s) (husable : s.Usable r)
    (hfits : s.Fits r size) (hn : s.submit opcode r size = some s') :
    Sound s' ∧ s.view.submit opcode r size = some s'.view := by
  simp only [Heap.submit] at hn
  simp only [Buffers.submit, getElem?_view]
  cases hob : s.objects[r]? with
  | none =>
    rw [hob] at hn
    cases hn
  | some ob =>
    have hfreed : ob.freed = false := husable ob hob
    have hle : size ≤ ob.capacity := hfits.2 ob hob
    rw [hob] at hn
    simp only at hn
    split at hn
    · cases hn
    rename_i hint
    rw [toSize_of_nonneg (not_not.mp hint) hfits.1] at hn
    obtain rfl := Option.some.inj hn
    constructor
    · apply @Sound.keep s { s with
        transfers := s.transfers ++ [⟨opcode, ob.address, size.toNat, r⟩]
        outcome := .returned } h rfl rfl rfl (fun _ _ => Iff.rfl) (fun _ => id) h.valid
      intro tr htr
      rcases List.mem_append.mp htr with hold | hnew
      · exact .inl hold
      · obtain rfl := List.mem_singleton.mp hnew
        refine .inr ?_
        cases ha : ob.address with
        | none => exact .inr ⟨⟨ob, hob, ha⟩, rfl⟩
        | some a =>
          refine .inl ⟨ob.region a, ⟨ob, a, hob, ha, hfreed, rfl⟩, rfl, ?_⟩
          show size.toNat ≤ ob.capacity
          omega
    · simp only [Option.map_some, Heap.view, List.map_append, List.map_cons, List.map_nil,
        Transfer.view]

theorem transfers_write (s : Heap) (a : ℕ) (vs : List UInt8) :
    (s.write a vs).transfers = s.transfers := by
  rw [Heap.write, Heap.touch]
  split <;> rfl

theorem view_eraseIdx (s : Heap) (k : ℕ) :
    ({ s with transfers := s.transfers.eraseIdx k } : Heap).view =
      { s.view with transfers := s.view.transfers.eraseIdx k } := by
  simp only [Heap.view, List.eraseIdx_map]

theorem Sound.eraseIdx (h : Sound s) (k : ℕ) :
    Sound { s with transfers := s.transfers.eraseIdx k } :=
  h.frame rfl rfl rfl (fun _ htr => List.mem_of_mem_eraseIdx htr) rfl

theorem Sound.complete {k : ℕ} {data : List UInt8} (h : Sound s)
    (hn : s.complete k data = some s') :
    Sound s' ∧ s.view.complete k data = some s'.view := by
  have htransfers : s.view.transfers[k]? = (s.transfers[k]?).map Transfer.view :=
    List.getElem?_map ..
  simp only [Heap.complete] at hn
  simp only [Buffers.complete, htransfers]
  cases htr : s.transfers[k]? with
  | none =>
    rw [htr] at hn
    cases hn
  | some tr =>
    rw [htr] at hn
    simp only [Option.map_some, Transfer.view, getElem?_view]
    rcases h.transfers tr (List.mem_of_getElem? htr) with
      ⟨g, ⟨ob, a, hob, ha, hfreed, rfl⟩, hbuf, hle⟩ | ⟨⟨ob, hob, hnone⟩, hbuf⟩
    · -- a transfer of a native buffer, which has its block until the transfer is over
      have hg : s.Backed tr.buffer (ob.region a) := ⟨ob, a, hob, ha, hfreed, rfl⟩
      simp only [hbuf] at hn
      simp only [hob, Option.map_some, ByteBuffer.view, ha, hfreed]
      cases hop : tr.opcode with
      | pread =>
        simp only [hop] at hn
        split at hn
        · rename_i hlen
          obtain rfl := Option.some.inj hn
          have hi : 0 + data.length ≤ ob.capacity := by
            rw [Nat.zero_add]
            exact Nat.le_trans hlen hle
          have hview := h.view_write hob ha hfreed hi
          have hsame : (s.write (a + 0) data).transfers = s.transfers := transfers_write ..
          have herase := (h.write hg hi).eraseIdx k
          rw [show (ob.region a).start + 0 = a + 0 from rfl, hsame] at herase
          refine ⟨herase, ?_⟩
          show (if data.length ≤ tr.nbytes then _ else _) = some ({ s.write (a + 0) data with
            transfers := s.transfers.eraseIdx k } : Heap).view
          rw [if_pos hlen, ← hsame, view_eraseIdx, hview]
          simp only [ByteBuffer.view, ha, hfreed]
          rfl
        · cases hn
      | pwrite =>
        simp only [hop] at hn
        have htouch : s.touch ⟨(ob.region a).start, tr.nbytes⟩ = s := by
          have hwithin : Within ⟨(ob.region a).start + 0, tr.nbytes⟩ (ob.region a) :=
            within_of_le (by rwa [Nat.zero_add])
          exact touch_eq (h.owned _ _ hg) hwithin
        rw [htouch] at hn
        obtain rfl := Option.some.inj hn
        exact ⟨h.eraseIdx k, by rw [view_eraseIdx]⟩
    · -- a buffer of the Java heap has no address, and nothing is transferred
      simp only [hbuf] at hn
      obtain rfl := Option.some.inj hn
      refine ⟨h.eraseIdx k, ?_⟩
      rw [view_eraseIdx]
      simp only [hob, Option.map_some, ByteBuffer.view, hnone]

/-- **One step** of the heap is one of the buffers, and keeps the invariant. -/
theorem Sound.step (h : Sound s) (hl : s.Proper l) (hn : s.next l = some s') :
    Sound s' ∧ s.view.next l = some s'.view := by
  cases l with
  | newAlignedBuffer size alignment memalign wrapped => exact h.newAlignedBuffer hn
  | allocate capacity =>
    obtain rfl := Option.some.inj hn
    refine ⟨(h.addObject rfl ⟨Nat.le_refl _, fun _ => rfl⟩).say _, ?_⟩
    simp only [Buffers.next, Buffers.add, Buffers.say, Heap.view, Heap.addObject, Heap.say,
      List.map_append, List.map_cons, List.map_nil, List.length_map, ByteBuffer.view]
  | freeBuffer buffer => exact h.freeBuffer hl hn
  | memset r size => exact h.memset hl.1 hl.2 hn
  | memsetBuffer r => exact h.memsetBuffer hl hn
  | limit r n => exact h.limit hn
  | put r i v => exact h.put hl hn
  | get r i => exact h.get hl hn
  | submit opcode r size => exact h.submit hl.1 hl.2 hn
  | complete k data => exact h.complete hn

/-! ### The main result -/

/-- **The heap refines the buffers.**  Wherever the blocks are placed and whatever they
held before: as long as no buffer is used when it has been freed, freed while the kernel
works on it, or used beyond its capacity, the same calls go through on buffers that have
their contents to themselves, and return and read the same.  No access is outside of the
allocated blocks, the blocks of different buffers are apart, and each block that is
allocated is the one of a buffer that has not been freed, or was lost when its object
could not be made. -/
theorem heap_refines_buffers {memory : ℕ → UInt8}
    (hr : Run Heap.next Heap.Proper (.empty memory) ls s) :
    (∃ x, Run Buffers.next (fun _ _ => True) .empty ls x ∧ x.outcome = s.outcome ∧ x = s.view) ∧
      s.fault = false ∧
      (∀ r r' g g', s.Backed r g → s.Backed r' g' → r ≠ r' → g.Apart g') ∧
      ∀ g ∈ s.blocks, g ∈ s.leaked ∨ ∃ r, s.Backed r g := by
  obtain ⟨hx, h⟩ := hr.map (I := Sound) Heap.view (.empty memory) fun _ _ _ h hl hn => h.step hl hn
  exact ⟨⟨s.view, hx, rfl, rfl⟩, h.clean, h.distinct, h.kept⟩

/-- Two buffers side by side: a read fills the one, the other is cleared. -/
def sideBySide : List Label :=
  [.newAlignedBuffer 16 8 (.ok 4096) true, .newAlignedBuffer 8 8 (.ok 4112) true,
    .submit .pread 0 16, .put 1 0 5, .complete 0 (List.replicate 16 7), .memsetBuffer 1,
    .freeBuffer (some 1), .get 0 15]

theorem heap_refines_buffers_side_by_side : ∃ (s : Heap) (x : Buffers),
    Run Heap.next Heap.Proper (.empty fun _ => 1) sideBySide s ∧ s.outcome = .byte 7 ∧
      s.fault = false ∧ Run Buffers.next (fun _ _ => True) .empty sideBySide x ∧
      x.outcome = .byte 7 := by
  obtain ⟨s, hr, hbyte⟩ := exists_run_of_exec Heap.next Heap.Proper (.empty fun _ => 1) sideBySide
    (fun s => s.outcome = .byte 7) (by decide)
  obtain ⟨⟨x, hx, hout, -⟩, hclean, -⟩ := heap_refines_buffers hr
  exact ⟨s, x, hr, hbyte, hclean, hx, hout.trans hbyte⟩

/-- A buffer is freed while a read is in flight, and its place given to another one,
which the read then writes. -/
def freedTooEarly : List Label :=
  [.newAlignedBuffer 8 8 (.ok 4096) true, .submit .pread 0 8, .freeBuffer (some 0),
    .newAlignedBuffer 8 8 (.ok 4096) true, .complete 0 (List.replicate 8 7), .get 1 0]

/-- The library does not see to it: the new buffer should hold a zero. -/
example : ∃ s : Heap,
    Reaches Heap.next (fun _ _ => True) (.empty fun _ => 1) s ∧ s.outcome = .byte 7 :=
  exists_of_exec Heap.next (fun _ _ => True) (.empty fun _ => 1) freedTooEarly
    (fun s => s.outcome = .byte 7) (by decide)

end Native

end ArtemisNative
