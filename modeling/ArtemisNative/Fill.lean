/-
ArtemisNative/Fill.lean

Filling a file with zeros.

`fill` writes the one buffer of zeros that the process has, block after block and then the
rest.  The kernel decides what each `write` does; `answers` are its results in the order in
which the code asks for them.  A result that is not negative counts as success, however few
bytes it stands for, and the number of blocks is cut down to an `int`: that is what
`filled_iff` is about.

The buffer is allocated by the first call that succeeds with it, for the alignment of that
call, and is then there for all others.  `fill` does not look at what `verifyBuffer` returns,
so without a buffer it goes on to write from `NULL`, which the kernel rejects:
`served_iff` says for which sequences of calls this makes no difference.
-/
import Mathlib.Algebra.BigOperators.Ring.Finset
import Mathlib.Data.List.Forall2

namespace ArtemisNative

namespace Fill

/-! ### The integers of C -/

def oneMega : ℕ := 1048576

/-- `(int) n` -/
def toInt (n : ℤ) : ℤ := n.bmod (2 ^ 32)

/-- `(size_t) n` -/
def toSize (n : ℤ) : ℕ := (n % 2 ^ 64).toNat

/-! ### The buffer of zeros -/

structure Memory where
  address : ℕ
  contents : ℕ → UInt8

/-- What `posix_memalign` comes to for an alignment. -/
structure Memalign (alignment : ℤ) where
  outcome : Option Memory
  aligned : ∀ m ∈ outcome, alignment ∣ m.address

/-- The globals of the library that `fill` uses. -/
structure Process where
  oneMegaBuffer : Option Memory
  zeros : ∀ m ∈ oneMegaBuffer, ∀ i < oneMega, m.contents i = 0

/-- A process that has just loaded the library. -/
def Process.loaded : Process where
  oneMegaBuffer := none
  zeros m hm := by simp at hm

/-- `memset(oneMegaBuffer, 0, ONE_MEGA)` -/
def memset (m : Memory) : Memory :=
  { m with contents := fun i => if i < oneMega then 0 else m.contents i }

/-- `verifyBuffer`, with what it returns.  The mutex it holds makes it one step. -/
def verifyBuffer {alignment : ℤ} (memalign : Memalign alignment) (process : Process) :
    Process × ℤ :=
  match process.oneMegaBuffer with
  | some _ => (process, 0)
  | none =>
    match memalign.outcome with
    | none => (process, -1)
    | some m =>
      ({ oneMegaBuffer := some (memset m)
         zeros := by
          intro m' hm i hi
          obtain rfl := Option.mem_some.mp hm
          exact if_pos hi }, 0)

/-! ### Writing -/

/-- The results of `write`, call by call, for the counts it is asked for. -/
structure Disk where
  write : ℕ → ℕ → ℤ
  le : ∀ call count, write call count ≤ count

/-- The file, as one call of `fill` leaves it: what it has written, and how much. -/
structure File where
  position : ℕ
  written : ℕ → Option UInt8 := fun _ => none
  total : ℕ := 0
  calls : ℕ := 0

def File.lseek (file : File) : File := { file with position := 0 }

/-- `write(fd, oneMegaBuffer, count)`; from `NULL` it fails with `EFAULT`. -/
def write (disk : Disk) (buffer : Option Memory) (count : ℕ) (file : File) : ℤ × File :=
  match buffer with
  | none => (-1, { file with calls := file.calls + 1 })
  | some m =>
    let res := disk.write file.calls count
    (res,
      { position := file.position + res.toNat
        written := fun p =>
          if file.position ≤ p ∧ p < file.position + res.toNat then
            some (m.contents (p - file.position))
          else file.written p
        total := file.total + res.toNat
        calls := file.calls + 1 })

inductive Thrown
  | outOfMemoryError
  | ioException (message : String)
  deriving DecidableEq, Repr

/-- The loop over the blocks. -/
def writeBlocks (disk : Disk) (buffer : Option Memory) : ℕ → File → Option Thrown × File
  | 0, file => (none, file)
  | n + 1, file =>
    let (res, file) := write disk buffer oneMega file
    if res < 0 then (some (.ioException "Cannot initialize file"), file)
    else writeBlocks disk buffer n file

/-- What a call of `fill` leaves: with what the buffer is when the write loop is reached. -/
structure Return where
  process : Process
  file : File
  loop : Option (Option Memory)
  thrown : Option Thrown

/-- The native `fill`, on a descriptor whose offset is `position`. -/
def LibaioContext.fill (disk : Disk) {alignment : ℤ} (memalign : Memalign alignment)
    (position : ℕ) (size : ℤ) (process : Process) : Return :=
  let blocks := toInt (size.tdiv oneMega)
  let rest := toInt (size.tmod oneMega)
  -- the result is not looked at
  let (process, _) := verifyBuffer memalign process
  let buffer := process.oneMegaBuffer
  let file := File.lseek { position := position }
  match writeBlocks disk buffer blocks.toNat file with
  | (some e, file) => ⟨process, file, some buffer, some e⟩
  | (none, file) =>
    if rest ≠ 0 then
      let (res, file) := write disk buffer (toSize rest) file
      if res < 0 then
        ⟨process, file, some buffer,
          some (.ioException "Cannot initialize file with final rest")⟩
      else ⟨process, file.lseek, some buffer, none⟩
    else ⟨process, file.lseek, some buffer, none⟩

/-! ### What the code asks for and what it gets -/

/-- The counts of the writes, if none of them fails. -/
def plan (size : ℤ) : List ℕ :=
  List.replicate (toInt (size.tdiv oneMega)).toNat oneMega ++
    if toInt (size.tmod oneMega) ≠ 0 then [toSize (toInt (size.tmod oneMega))] else []

/-- The result of one write. -/
def answer (disk : Disk) (buffer : Option Memory) (call count : ℕ) : ℤ :=
  match buffer with
  | none => -1
  | some _ => disk.write call count

def answers (disk : Disk) (buffer : Option Memory) : ℕ → List ℕ → List ℤ
  | _, [] => []
  | call, count :: counts =>
    answer disk buffer call count :: answers disk buffer (call + 1) counts

variable {disk : Disk} {buffer : Option Memory} {count n : ℕ} {file : File} {size : ℕ}
variable {alignment : ℤ} {memalign : Memalign alignment} {process : Process} {position : ℕ}

theorem answers_append (counts more : List ℕ) (call : ℕ) :
    answers disk buffer call (counts ++ more) =
      answers disk buffer call counts ++ answers disk buffer (call + counts.length) more := by
  induction counts generalizing call with
  | nil => rfl
  | cons count counts ih =>
    rw [List.cons_append, answers, answers, ih (call + 1), List.cons_append, List.length_cons,
      Nat.add_right_comm, Nat.add_assoc]

theorem answer_le (disk : Disk) (buffer : Option Memory) (call count : ℕ) :
    answer disk buffer call count ≤ count := by
  cases buffer with
  | none =>
    show (-1 : ℤ) ≤ count
    omega
  | some m => exact disk.le call count

/-- No write is given more than it asks for. -/
theorem answers_le (disk : Disk) (buffer : Option Memory) (call : ℕ) (counts : List ℕ) :
    List.Forall₂ (· ≤ ·) (answers disk buffer call counts) (counts.map Nat.cast) := by
  induction counts generalizing call with
  | nil => exact .nil
  | cons count counts ih => exact .cons (answer_le disk buffer call count) (ih (call + 1))

/-- Sums of bounded terms agree only where the terms do. -/
theorem sum_le_and_eq {xs ys : List ℤ} (h : List.Forall₂ (· ≤ ·) xs ys) :
    xs.sum ≤ ys.sum ∧ (xs.sum = ys.sum → xs = ys) := by
  induction h with
  | nil => exact ⟨le_rfl, fun _ => rfl⟩
  | @cons x y xs ys hle _ ih =>
    obtain ⟨hsum, heq⟩ := ih
    rw [List.sum_cons, List.sum_cons]
    refine ⟨by omega, fun h => ?_⟩
    obtain rfl : x = y := by omega
    rw [heq (by omega)]

/-! ### One write -/

theorem write_fst : (write disk buffer count file).1 = answer disk buffer file.calls count := by
  cases buffer <;> rfl

theorem write_calls : (write disk buffer count file).2.calls = file.calls + 1 := by
  cases buffer <;> rfl

theorem write_total (h : 0 ≤ answer disk buffer file.calls count) :
    ((write disk buffer count file).2.total : ℤ) =
      file.total + answer disk buffer file.calls count := by
  cases buffer with
  | none =>
    have hneg : answer disk none file.calls count = -1 := rfl
    omega
  | some m =>
    show ((file.total + (disk.write file.calls count).toNat : ℕ) : ℤ) = _
    rw [Int.natCast_add, Int.toNat_of_nonneg (a := disk.write file.calls count) h]
    rfl

/-- Zeros have been written up to the offset, and nothing else. -/
structure Zeroed (file : File) : Prop where
  total : file.total = file.position
  zeros : ∀ p < file.position, file.written p = some 0

theorem Zeroed.write (h : Zeroed file) (hcount : count ≤ oneMega)
    (hbuffer : ∀ m ∈ buffer, ∀ i < oneMega, m.contents i = 0) :
    Zeroed (write disk buffer count file).2 := by
  cases buffer with
  | none => exact ⟨h.total, h.zeros⟩
  | some m =>
    have hle : (disk.write file.calls count).toNat ≤ oneMega := by
      have := disk.le file.calls count
      omega
    refine ⟨congrArg (· + (disk.write file.calls count).toNat) h.total, fun p hp => ?_⟩
    show (if file.position ≤ p ∧ p < file.position + (disk.write file.calls count).toNat then
      some (m.contents (p - file.position)) else file.written p) = some 0
    replace hp : p < file.position + (disk.write file.calls count).toNat := hp
    by_cases hpos : file.position ≤ p
    · rw [if_pos ⟨hpos, hp⟩, hbuffer m rfl _ (by omega)]
    · rw [if_neg fun hc => hpos hc.1, h.zeros p (by omega)]

/-! ### The loop -/

theorem writeBlocks_succ :
    writeBlocks disk buffer (n + 1) file =
      if answer disk buffer file.calls oneMega < 0 then
        (some (.ioException "Cannot initialize file"), (write disk buffer oneMega file).2)
      else writeBlocks disk buffer n (write disk buffer oneMega file).2 := by
  rw [← write_fst]
  rfl

theorem writeBlocks_zeroed (h : Zeroed file)
    (hbuffer : ∀ m ∈ buffer, ∀ i < oneMega, m.contents i = 0) :
    Zeroed (writeBlocks disk buffer n file).2 := by
  induction n generalizing file with
  | zero => exact h
  | succ n ih =>
    rw [writeBlocks_succ]
    split_ifs
    · exact h.write le_rfl hbuffer
    · exact ih (h.write le_rfl hbuffer)

/-- The loop gets to its end if no write fails, and has then written what these return. -/
theorem writeBlocks_spec (disk : Disk) (buffer : Option Memory) (n : ℕ) (file : File) :
    ((writeBlocks disk buffer n file).1 = none ↔
      ∀ a ∈ answers disk buffer file.calls (List.replicate n oneMega), 0 ≤ a) ∧
    ((writeBlocks disk buffer n file).1 = none →
      (writeBlocks disk buffer n file).2.calls = file.calls + n ∧
      ((writeBlocks disk buffer n file).2.total : ℤ) =
        file.total + (answers disk buffer file.calls (List.replicate n oneMega)).sum) := by
  induction n generalizing file with
  | zero => simp [writeBlocks, answers]
  | succ n ih =>
    obtain ⟨hend, hall⟩ := ih (write disk buffer oneMega file).2
    rw [write_calls] at hend hall
    rw [writeBlocks_succ, List.replicate_succ, answers, List.forall_mem_cons,
      List.sum_cons]
    by_cases hres : answer disk buffer file.calls oneMega < 0
    · rw [if_pos hres]
      exact ⟨iff_of_false (by simp) fun h => absurd h.1 (by omega), fun h => by simp at h⟩
    · rw [if_neg hres]
      refine ⟨hend.trans ⟨fun h => ⟨by omega, h⟩, And.right⟩, fun h => ?_⟩
      obtain ⟨hcalls, htotal⟩ := hall h
      refine ⟨by rw [hcalls]; omega, ?_⟩
      rw [htotal, write_total (by omega)]
      omega

/-! ### The whole call -/

theorem toInt_natCast_le (n : ℕ) : (toInt n).toNat ≤ n := by
  rw [toInt, Int.bmod_def]
  omega

theorem toInt_natCast_eq_iff (n : ℕ) : (toInt n).toNat = n ↔ n < 2 ^ 31 := by
  rw [toInt, Int.bmod_def]
  omega

theorem tdiv_oneMega (size : ℕ) : (size : ℤ).tdiv oneMega = (size / oneMega : ℕ) :=
  (Int.ofNat_tdiv size oneMega).symm

theorem tmod_oneMega (size : ℕ) : toInt ((size : ℤ).tmod oneMega) = (size % oneMega : ℕ) := by
  have hlt : size % oneMega < 2 ^ 20 := Nat.mod_lt _ (by decide)
  rw [← Int.ofNat_tmod, toInt, Int.bmod_def]
  omega

/-- The blocks that the loop counts, and the rest. -/
theorem plan_eq (size : ℕ) :
    plan size = List.replicate (toInt (size / oneMega : ℕ)).toNat oneMega ++
      if size % oneMega ≠ 0 then [size % oneMega] else [] := by
  have hlt : size % oneMega < 2 ^ 20 := Nat.mod_lt _ (by decide)
  rw [plan, tdiv_oneMega, tmod_oneMega]
  have hsize : toSize (size % oneMega : ℕ) = size % oneMega := by
    rw [toSize]
    omega
  by_cases hrest : size % oneMega = 0
  · rw [if_neg (by simp [hrest]), if_neg (by simp [hrest])]
  · rw [if_pos (by omega), if_pos hrest, hsize]

/-- The number of blocks is cut down from 2^31 on, and no less. -/
theorem plan_sum (size : ℕ) :
    (plan size).sum ≤ size ∧ ((plan size).sum = size ↔ size < 2 ^ 51) := by
  have hle := toInt_natCast_le (size / oneMega)
  have heq := toInt_natCast_eq_iff (size / oneMega)
  have hsum : (plan size).sum = (toInt (size / oneMega : ℕ)).toNat * oneMega + size % oneMega := by
    rw [plan_eq, List.sum_append, List.sum_replicate, Nat.nsmul_eq_mul]
    by_cases hrest : size % oneMega = 0
    · simp [hrest]
    · simp [hrest]
  rw [hsum]
  unfold oneMega at *
  constructor
  · omega
  · rw [← (by omega : size / 1048576 < 2 ^ 31 ↔ size < 2 ^ 51), ← heq]
    omega

/-- What the buffer is when a call of `fill` has verified it. -/
def verified {alignment : ℤ} (memalign : Memalign alignment) (process : Process) :
    Option Memory :=
  (verifyBuffer memalign process).1.oneMegaBuffer

section

variable {z : ℤ}

/-- A call whose loop fails. -/
theorem fill_of_failed {e : Thrown}
    (hloop : writeBlocks disk (verified memalign process) (toInt (z.tdiv oneMega)).toNat
      { position := 0 } = (some e, file)) :
    LibaioContext.fill disk memalign position z process =
      ⟨(verifyBuffer memalign process).1, file, some (verified memalign process), some e⟩ := by
  show (match writeBlocks disk (verified memalign process) (toInt (z.tdiv oneMega)).toNat
    { position := 0 } with | (some e, file) => _ | (none, file) => _) = _
  rw [hloop]
  rfl

/-- A call whose loop succeeds, with the rest to write. -/
theorem fill_of_rest
    (hloop : writeBlocks disk (verified memalign process) (toInt (z.tdiv oneMega)).toNat
      { position := 0 } = (none, file))
    (hrest : toInt (z.tmod oneMega) ≠ 0) :
    LibaioContext.fill disk memalign position z process =
      if answer disk (verified memalign process) file.calls (toSize (toInt (z.tmod oneMega))) < 0
      then
        ⟨(verifyBuffer memalign process).1,
          (write disk (verified memalign process) (toSize (toInt (z.tmod oneMega))) file).2,
          some (verified memalign process),
          some (.ioException "Cannot initialize file with final rest")⟩
      else
        ⟨(verifyBuffer memalign process).1,
          (write disk (verified memalign process) (toSize (toInt (z.tmod oneMega))) file).2.lseek,
          some (verified memalign process), none⟩ := by
  show (match writeBlocks disk (verified memalign process) (toInt (z.tdiv oneMega)).toNat
    { position := 0 } with | (some e, file) => _ | (none, file) => _) = _
  rw [hloop, ← write_fst]
  exact if_pos hrest

theorem fill_of_no_rest
    (hloop : writeBlocks disk (verified memalign process) (toInt (z.tdiv oneMega)).toNat
      { position := 0 } = (none, file))
    (hrest : toInt (z.tmod oneMega) = 0) :
    LibaioContext.fill disk memalign position z process =
      ⟨(verifyBuffer memalign process).1, file.lseek, some (verified memalign process), none⟩ := by
  show (match writeBlocks disk (verified memalign process) (toInt (z.tdiv oneMega)).toNat
    { position := 0 } with | (some e, file) => _ | (none, file) => _) = _
  rw [hloop]
  exact if_neg (not_not.mpr hrest)

end

/-- `fill` returns normally exactly where no write fails, and has then written what the writes
return; all of it zeros. -/
theorem fill_spec (disk : Disk) {alignment : ℤ} (memalign : Memalign alignment)
    (position size : ℕ) (process : Process) :
    ((LibaioContext.fill disk memalign position size process).thrown = none ↔
      ∀ a ∈ answers disk (verified memalign process) 0 (plan size), 0 ≤ a) ∧
    ((LibaioContext.fill disk memalign position size process).thrown = none →
      ((LibaioContext.fill disk memalign position size process).file.total : ℤ) =
        (answers disk (verified memalign process) 0 (plan size)).sum ∧
      ∀ p < (LibaioContext.fill disk memalign position size process).file.total,
        (LibaioContext.fill disk memalign position size process).file.written p = some 0) := by
  have hbuffer : ∀ m ∈ verified memalign process, ∀ i < oneMega, m.contents i = 0 :=
    (verifyBuffer memalign process).1.zeros
  obtain ⟨hend, hall⟩ := writeBlocks_spec disk (verified memalign process)
    (toInt ((size : ℤ).tdiv oneMega)).toNat { position := 0 }
  have hzeroed : Zeroed (writeBlocks disk (verified memalign process)
      (toInt ((size : ℤ).tdiv oneMega)).toNat { position := 0 }).2 :=
    writeBlocks_zeroed ⟨rfl, fun p hp => absurd hp (Nat.not_lt_zero p)⟩ hbuffer
  rcases hloop : writeBlocks disk (verified memalign process)
    (toInt ((size : ℤ).tdiv oneMega)).toNat { position := 0 } with ⟨_ | e, file⟩
  · rw [hloop] at hend hall hzeroed
    have hblocks := hend.mp rfl
    obtain ⟨hcalls, htotal⟩ := hall rfl
    by_cases hrest : toInt ((size : ℤ).tmod oneMega) = 0
    · rw [fill_of_no_rest hloop hrest]
      have hplan : plan size =
          List.replicate (toInt ((size : ℤ).tdiv oneMega)).toNat oneMega := by
        rw [plan, if_neg (not_not.mpr hrest), List.append_nil]
      rw [hplan]
      refine ⟨iff_of_true rfl hblocks, fun _ => ⟨htotal.trans (Int.zero_add _),
        fun p hp => ?_⟩⟩
      exact hzeroed.zeros p (hzeroed.total ▸ hp)
    · rw [fill_of_rest hloop hrest]
      have hplan : answers disk (verified memalign process) 0 (plan size) =
          answers disk (verified memalign process) 0
            (List.replicate (toInt ((size : ℤ).tdiv oneMega)).toNat oneMega) ++
          [answer disk (verified memalign process) file.calls
            (toSize (toInt ((size : ℤ).tmod oneMega)))] := by
        rw [plan, if_pos hrest, answers_append, List.length_replicate, hcalls]
        rfl
      have hcount : toSize (toInt ((size : ℤ).tmod oneMega)) ≤ oneMega := by
        have hlt : size % oneMega < 2 ^ 20 := Nat.mod_lt _ (by decide)
        rw [tmod_oneMega, toSize]
        unfold oneMega at *
        omega
      rw [hplan, List.forall_mem_append, List.forall_mem_singleton, List.sum_append,
        List.sum_singleton]
      split_ifs with hres
      · exact ⟨iff_of_false (by simp) fun h => absurd h.2 (by omega), fun h => by simp at h⟩
      · have hfile : Zeroed (write disk (verified memalign process)
            (toSize (toInt ((size : ℤ).tmod oneMega))) file).2 := hzeroed.write hcount hbuffer
        refine ⟨iff_of_true rfl ⟨hblocks, by omega⟩, fun _ => ⟨?_, fun p hp => ?_⟩⟩
        · show ((write disk (verified memalign process)
            (toSize (toInt ((size : ℤ).tmod oneMega))) file).2.total : ℤ) = _
          rw [write_total (by omega), htotal]
          simp
        · exact hfile.zeros p (hfile.total ▸ hp)
  · rw [hloop] at hend
    rw [fill_of_failed hloop]
    refine ⟨iff_of_false (by simp) fun h => ?_, fun h => by simp at h⟩
    rw [plan, answers_append, List.forall_mem_append] at h
    exact absurd (hend.mpr h.1) (by simp)

/-! ### Whether the file is filled -/

/-- Without an exception, the bytes up to `size` have been written with zeros and no others
have been written. -/
def Filled (size : ℤ) (r : Return) : Prop :=
  r.thrown = none → (∀ p : ℕ, (p : ℤ) < size → r.file.written p = some 0) ∧
    (r.file.total : ℤ) = size

/-- **`fill` fills the file exactly where some write fails, or all writes are full and the
number of blocks fits into an `int`.** -/
theorem filled_iff (disk : Disk) {alignment : ℤ} (memalign : Memalign alignment)
    (position size : ℕ) (process : Process) :
    Filled size (LibaioContext.fill disk memalign position size process) ↔
      (∃ a ∈ answers disk (verified memalign process) 0 (plan size), a < 0) ∨
      (size < 2 ^ 51 ∧
        answers disk (verified memalign process) 0 (plan size) = (plan size).map Nat.cast) := by
  obtain ⟨hthrown, hdone⟩ := fill_spec disk memalign position size process
  obtain ⟨hle, heq⟩ := sum_le_and_eq
    (answers_le disk (verified memalign process) 0 (plan size))
  obtain ⟨hplan, hsize⟩ := plan_sum size
  have hcast : ((plan size).map Nat.cast : List ℤ).sum = ((plan size).sum : ℕ) :=
    (Nat.cast_list_sum (plan size)).symm
  by_cases hnone : (LibaioContext.fill disk memalign position size process).thrown = none
  · have hall := hthrown.mp hnone
    obtain ⟨htotal, hzeros⟩ := hdone hnone
    constructor
    · intro h
      obtain ⟨-, hfull⟩ := h hnone
      rw [htotal] at hfull
      refine .inr ⟨hsize.mp (by omega), heq (by omega)⟩
    · rintro (⟨a, ha, hneg⟩ | ⟨hlt, hfull⟩) -
      · exact absurd (hall a ha) (by omega)
      · have hall : ((LibaioContext.fill disk memalign position size process).file.total : ℤ) =
            size := by
          rw [htotal, hfull, hcast, hsize.mpr hlt]
        exact ⟨fun p hp => hzeros p (by omega), hall⟩
  · refine iff_of_true (fun h => absurd h hnone) (.inl ?_)
    by_contra hno
    exact hnone (hthrown.mpr fun a ha => Int.not_lt.mp fun hneg => hno ⟨a, ha, hneg⟩)

/-- A disk that writes no more than `n` bytes at a time. -/
def Disk.upTo (n : ℕ) : Disk where
  write _ count := (min n count : ℕ)
  le _ count := Int.ofNat_le.mpr (Nat.min_le_right n count)

/-- `posix_memalign` that returns `address`. -/
def Memalign.at (address : ℕ) {alignment : ℤ} (h : alignment ∣ address) :
    Memalign alignment where
  outcome := some ⟨address, fun _ => 0⟩
  aligned m hm := by
    obtain rfl := Option.mem_some.mp hm
    exact h

/-- A write of 1000 bytes out of 4096 passes; and of 2^51 bytes none are written. -/
theorem not_filled :
    ¬Filled 4096 (LibaioContext.fill (.upTo 1000) (.at 4096 (dvd_refl 4096)) 0 4096 .loaded) ∧
    ¬Filled (2 ^ 51)
      (LibaioContext.fill (.upTo (2 ^ 20)) (.at 4096 (dvd_refl 4096)) 0 (2 ^ 51) .loaded) := by
  constructor
  · intro h
    exact absurd (h (by decide)).2 (by decide)
  · intro h
    exact absurd (h (by decide)).2 (by decide)

/-! ### Sequences of calls -/

/-- `throwIOExceptionErrorNo`; `exceptionMessage` makes a negative error positive, and appends
the text of `strerror` for it. -/
def throwIOExceptionErrorNo (strerror : ℤ → String) (message : String) (errorNumber : ℤ) :
    Thrown :=
  .ioException (message ++
    strerror (if errorNumber < 0 then errorNumber * -1 else errorNumber))

/-- The native `fallocate`, with what `fallocate(2)` returns and `errno`. -/
def LibaioContext.fallocate (strerror : ℤ → String) (res errno : ℤ) : Option Thrown :=
  if res < 0 then
    some (throwIOExceptionErrorNo strerror "Could not preallocate file" errno)
  else none

/-- A call of `LibaioFile.fill`: its arguments, and what the system does in it. -/
structure Request where
  alignment : ℤ
  size : ℤ
  position : ℕ
  disk : Disk
  memalign : Memalign alignment
  fallocate : ℤ
  errno : ℤ
  strerror : ℤ → String

structure Outcome where
  /-- what the native `fill` has left -/
  native : Return
  thrown : Option Thrown
  /-- `fallocate` was called -/
  fellBack : Bool

def LibaioFile.fill (r : Request) (process : Process) : Outcome :=
  let native := LibaioContext.fill r.disk r.memalign r.position r.size process
  match native.thrown with
  | some .outOfMemoryError =>
    ⟨native, LibaioContext.fallocate r.strerror r.fallocate r.errno, true⟩
  | thrown => ⟨native, thrown, false⟩

/-- Calls one after the other, in one process. -/
def fills : List Request → Process → List (Request × Outcome)
  | [], _ => []
  | r :: rs, process =>
    let o := LibaioFile.fill r process
    (r, o) :: fills rs o.native.process

/-- A buffer of 1 MiB of zeros with the alignment. -/
def Suitable (alignment : ℤ) (buffer : Option Memory) : Prop :=
  ∃ m, buffer = some m ∧ alignment ∣ m.address ∧ ∀ i < oneMega, m.contents i = 0

/-- What a call should do: write from a suitable buffer, or find that there is none and fall
back to `fallocate`. -/
structure Served (r : Request) (o : Outcome) : Prop where
  suitable : ∀ buffer, o.native.loop = some buffer → Suitable r.alignment buffer
  outOfMemory : ¬Suitable r.alignment o.native.process.oneMegaBuffer →
    o.native.thrown = some .outOfMemoryError ∧ o.fellBack = true

/-! ### The buffer over a sequence -/

variable {r : Request} {rs : List Request} {m : Memory}

theorem fill_process (disk : Disk) {alignment : ℤ} (memalign : Memalign alignment)
    (position : ℕ) (z : ℤ) (process : Process) :
    (LibaioContext.fill disk memalign position z process).process =
      (verifyBuffer memalign process).1 ∧
    (LibaioContext.fill disk memalign position z process).loop =
      some (verified memalign process) := by
  rcases hloop : writeBlocks disk (verified memalign process)
    (toInt (z.tdiv oneMega)).toNat { position := 0 } with ⟨_ | e, file⟩
  · by_cases hrest : toInt (z.tmod oneMega) = 0
    · rw [fill_of_no_rest hloop hrest]
      exact ⟨rfl, rfl⟩
    · rw [fill_of_rest hloop hrest]
      split_ifs
      · exact ⟨rfl, rfl⟩
      · exact ⟨rfl, rfl⟩
  · rw [fill_of_failed hloop]
    exact ⟨rfl, rfl⟩

theorem libaioFile_fill_native : (LibaioFile.fill r process).native =
    LibaioContext.fill r.disk r.memalign r.position r.size process := by
  unfold LibaioFile.fill
  dsimp only
  split <;> rfl

/-- A call is served where the buffer that it verifies suits it. -/
theorem served_iff_suitable :
    Served r (LibaioFile.fill r process) ↔
      Suitable r.alignment (verified r.memalign process) := by
  obtain ⟨hprocess, hloop⟩ := fill_process r.disk r.memalign r.position r.size
    process
  constructor
  · intro h
    exact h.suitable _ (by rw [libaioFile_fill_native, hloop])
  · intro h
    refine ⟨fun buffer hbuffer => ?_, fun hnot => absurd h ?_⟩
    · rw [libaioFile_fill_native, hloop] at hbuffer
      rwa [← Option.some.inj hbuffer]
    · rwa [libaioFile_fill_native, hprocess] at hnot

/-- Once there is a buffer, it stays. -/
theorem verified_of_buffer {alignment : ℤ} (memalign : Memalign alignment)
    (h : process.oneMegaBuffer = some m) :
    (verifyBuffer memalign process).1 = process := by
  unfold verifyBuffer
  rw [h]

theorem verified_of_null {alignment : ℤ} (memalign : Memalign alignment)
    (h : process.oneMegaBuffer = none) :
    verified memalign process = memalign.outcome.map memset := by
  unfold verified verifyBuffer
  rw [h]
  rcases memalign.outcome with _ | m
  · exact h
  · rfl

/-- From the buffer on, the calls must have alignments that it happens to have. -/
theorem served_of_buffer (h : process.oneMegaBuffer = some m) :
    (∀ p ∈ fills rs process, Served p.1 p.2) ↔ ∀ r ∈ rs, r.alignment ∣ m.address := by
  induction rs generalizing process with
  | nil => simp [fills]
  | cons r rs ih =>
    have hverified := verified_of_buffer r.memalign h
    have hprocess : (LibaioFile.fill r process).native.process = process := by
      rw [libaioFile_fill_native, (fill_process ..).1, hverified]
    have hsuitable : Suitable r.alignment (verified r.memalign process) ↔
        r.alignment ∣ m.address := by
      rw [verified, hverified, h]
      constructor
      · rintro ⟨m', hm, hdvd, -⟩
        rwa [Option.some.inj hm]
      · exact fun hdvd => ⟨m, rfl, hdvd, process.zeros m h⟩
    rw [fills, List.forall_mem_cons, List.forall_mem_cons, served_iff_suitable, hsuitable,
      hprocess, ih h]

/-- **Every call of a sequence is served exactly where the first one gets a buffer that happens
to be aligned for all.** -/
theorem served_iff (rs : List Request) :
    (∀ p ∈ fills rs .loaded, Served p.1 p.2) ↔
      ∀ r ∈ rs.head?, ∃ m, r.memalign.outcome = some m ∧
        ∀ r' ∈ rs, r'.alignment ∣ m.address := by
  cases rs with
  | nil => simp [fills]
  | cons r rs =>
    have hnull : verified r.memalign .loaded = r.memalign.outcome.map memset :=
      verified_of_null r.memalign rfl
    have hprocess : (LibaioFile.fill r .loaded).native.process.oneMegaBuffer =
        verified r.memalign .loaded := by
      rw [libaioFile_fill_native, (fill_process ..).1]
      rfl
    rw [fills, List.forall_mem_cons, served_iff_suitable, List.head?_cons]
    cases houtcome : r.memalign.outcome with
    | none =>
      rw [houtcome] at hnull
      refine iff_of_false (fun h => ?_) fun h => ?_
      · obtain ⟨m, hm, -⟩ := h.1
        rw [hnull] at hm
        simp at hm
      · obtain ⟨m, hm, -⟩ := h r rfl
        rw [houtcome] at hm
        simp at hm
    | some m =>
      rw [houtcome] at hnull
      have hbuffer : (LibaioFile.fill r .loaded).native.process.oneMegaBuffer =
          some (memset m) := hprocess.trans hnull
      have hdvd : r.alignment ∣ m.address := r.memalign.aligned m houtcome
      rw [served_of_buffer hbuffer, hnull]
      constructor
      · rintro ⟨-, hall⟩ r' hr
        obtain rfl := Option.some.inj hr
        exact ⟨m, houtcome, List.forall_mem_cons.mpr ⟨hdvd, hall⟩⟩
      · intro h
        obtain ⟨m', hm, hall⟩ := h r rfl
        obtain rfl : m = m' := Option.some.inj (houtcome.symm.trans hm)
        refine ⟨⟨memset m, rfl, hdvd, fun i hi => if_pos hi⟩, ?_⟩
        exact (List.forall_mem_cons.mp hall).2

theorem writeBlocks_thrown (disk : Disk) (buffer : Option Memory) (n : ℕ) (file : File) :
    (writeBlocks disk buffer n file).1 ≠ some .outOfMemoryError := by
  induction n generalizing file with
  | zero =>
    show none ≠ some Thrown.outOfMemoryError
    simp
  | succ n ih =>
    rw [writeBlocks_succ]
    split_ifs
    · simp
    · exact ih _

/-- The signal that the fallback waits for is never given. -/
theorem fill_fellBack (r : Request) (process : Process) :
    (LibaioFile.fill r process).fellBack = false := by
  have hthrown : (LibaioContext.fill r.disk r.memalign r.position r.size process).thrown ≠
      some .outOfMemoryError := by
    have hnot := writeBlocks_thrown r.disk (verified r.memalign process)
      (toInt (r.size.tdiv oneMega)).toNat { position := 0 }
    rcases hloop : writeBlocks r.disk (verified r.memalign process)
      (toInt (r.size.tdiv oneMega)).toNat { position := 0 } with ⟨_ | e, file⟩
    · by_cases hrest : toInt (r.size.tmod oneMega) = 0
      · rw [fill_of_no_rest hloop hrest]
        simp
      · rw [fill_of_rest hloop hrest]
        split_ifs <;> simp
    · rw [hloop] at hnot
      rw [fill_of_failed hloop]
      exact hnot
  unfold LibaioFile.fill
  dsimp only
  split
  · next h => exact absurd h hthrown
  · rfl

/-- A call with a given alignment and buffer, on a disk that writes everything. -/
def Request.of {alignment : ℤ} (memalign : Memalign alignment) (size : ℤ) : Request where
  alignment := alignment
  size := size
  position := 0
  disk := .upTo (2 ^ 20)
  memalign := memalign
  fallocate := 0
  errno := 0
  strerror _ := ""

/-- `posix_memalign` without memory. -/
def Memalign.fails (alignment : ℤ) : Memalign alignment where
  outcome := none
  aligned m hm := by simp at hm

/-- A call for 4096 after one for 512, and a call without memory. -/
theorem not_served :
    (¬∀ p ∈ fills [.of (.at 4608 (by decide : (512 : ℤ) ∣ (4608 : ℕ))) 4096,
        .of (.at 8192 (by decide : (4096 : ℤ) ∣ (8192 : ℕ))) 4096] .loaded, Served p.1 p.2) ∧
    ¬∀ p ∈ fills [.of (.fails 4096) 4096] .loaded, Served p.1 p.2 := by
  constructor
  · rw [fills, List.forall_mem_cons, served_of_buffer (m := memset ⟨4608, fun _ => 0⟩) rfl]
    rintro ⟨-, h⟩
    have hdvd := h _ (List.mem_singleton.mpr rfl)
    exact absurd (show (4096 : ℤ) ∣ (4608 : ℕ) from hdvd) (by decide)
  · rw [fills, List.forall_mem_cons, served_iff_suitable]
    rintro ⟨⟨m, hm, -⟩, -⟩
    exact Option.some_ne_none m hm.symm

end Fill

end ArtemisNative
