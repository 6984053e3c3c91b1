/-
ArtemisNative/Files.lean

`LibaioFile` objects and the descriptors of the process.

A `LibaioFile` is a descriptor number and perhaps a context.  Its methods pass the
number on: `write` and `read` to `submitWrite` and `submitRead` of the context,
`fill`, `fallocate`, `lock` and `close` to system calls.  `close` sets the field
`open`, which nothing reads, and keeps the number.  The operating system gives
each new file the lowest number that is free, so the number of a closed object
may stand for a file that another object has opened.

Calls come one after the other.  Each opening of a file is a file of its own here,
named after the object it was made for, and `effects` is the history of what the
calls have done to which of them.

The promise is that a call affects no other file than the object's own, and none
after `close` (`OwnOnly`).  A run keeps it if and only if no call is carried out
on a closed object while its number is open again (`own_only_iff`).
-/
import ArtemisNative.Methods
import ArtemisNative.Lib.Slots

namespace ArtemisNative

open Transition

/-! ### Objects and calls -/

/-- What a descriptor stands for: the file that object `k` was opened on, or
something else the process has open. -/
inductive Opening
  | file (k : ℕ)
  | other (n : ℕ)
  deriving DecidableEq, Repr

/-- A `LibaioFile`; `hasContext` is `ctx != null`, `isOpen` the field `open`, and
`closed` a history: `close` has been called. -/
structure LibaioFile where
  fd : ℕ
  hasContext : Bool
  isOpen : Bool
  closed : Bool
  deriving DecidableEq, Repr

inductive FileOp
  | write (position size : ℤ) (callback : Option ℕ)
  | read (position size : ℤ) (callback : Option ℕ)
  | fill (alignment size : ℤ)
  | fallocate (size : ℤ)
  | lock
  | close
  deriving DecidableEq, Repr

/-- What `write` and `read` pass to the context; on a control file they throw a
`NullPointerException` instead. -/
def LibaioFile.submission (f : LibaioFile) : FileOp → Option Submission
  | .write position size callback =>
    if f.hasContext then some ⟨.pwrite, f.fd, position, size, callback⟩ else none
  | .read position size callback =>
    if f.hasContext then some ⟨.pread, f.fd, position, size, callback⟩ else none
  | _ => none

/-- Does the call come to act on its descriptor?  `accepted` is the answer of the
context to a submission, or of the system call; `close` always acts. -/
def LibaioFile.acts (f : LibaioFile) (accepted : Bool) : FileOp → Bool
  | .close => true
  | .write position size callback =>
    (f.submission (.write position size callback)).isSome && accepted
  | .read position size callback =>
    (f.submission (.read position size callback)).isSome && accepted
  | _ => accepted

/-- What a call on object `object` did: to which file, and whether `close` of the object
had been called before. -/
structure Effect where
  object : ℕ
  op : FileOp
  target : Opening
  late : Bool
  deriving DecidableEq, Repr

structure Files where
  table : Slots Opening
  objects : List LibaioFile
  effects : List Effect

inductive FileAct
  | openFile (opened : Bool)
  | openControlFile (opened : Bool)
  | invoke (k : ℕ) (op : FileOp) (accepted : Bool)
  | openOther (n : ℕ)
  | closeOther (fd : ℕ)
  deriving DecidableEq, Repr

namespace Files

/-- Before any file is opened, in a process with the descriptors `table`. -/
def initial (table : Slots ℕ) : Files where
  table := ⟨fun i => (table.get i).map .other, table.bound, fun i hi => by
    rw [table.get_bound i hi]
    rfl⟩
  objects := []
  effects := []

/-- `open(2)` and the new object; where it fails an exception is thrown. -/
def openStep (s : Files) (hasContext opened : Bool) : Files :=
  if opened then
    { s with
      table := s.table.insert (.file s.objects.length)
      objects := s.objects ++ [⟨s.table.lowest, hasContext, false, false⟩] }
  else
    s

/-- What the call `op` on object `k` records, when it acts. -/
def effect (s : Files) (k : ℕ) (f : LibaioFile) (op : FileOp) : List Effect :=
  ((s.table.get f.fd).map fun target => ⟨k, op, target, f.closed⟩).toList

def invokeStep (s : Files) (k : ℕ) (f : LibaioFile) (op : FileOp) (accepted : Bool) : Files :=
  let effects := if f.acts accepted op then s.effects ++ s.effect k f op else s.effects
  match op with
  | .close =>
    { s with
      table := s.table.remove f.fd
      objects := s.objects.set k { f with isOpen := false, closed := true }
      effects := effects }
  | _ => { s with effects := effects }

def next (s : Files) : FileAct → Option Files
  | .openFile opened => some (s.openStep true opened)
  | .openControlFile opened => some (s.openStep false opened)
  | .invoke k op accepted => (s.objects[k]?).map fun f => s.invokeStep k f op accepted
  | .openOther n => some { s with table := s.table.insert (.other n) }
  | .closeOther fd =>
    match s.table.get fd with
    | some (.other _) => some { s with table := s.table.remove fd }
    | _ => none

/-! ### What a call can do -/

/-- No call has affected another file than its object's own, or any file after
`close`. -/
def OwnOnly (s : Files) : Prop := ∀ e ∈ s.effects, e.target = .file e.object ∧ e.late = false

/-- A call that acts on a closed object finds its number free. -/
def Timely (s : Files) : FileAct → Prop
  | .invoke k op accepted => ∀ f, s.objects[k]? = some f → f.closed = true →
      f.acts accepted op = true → s.table.get f.fd = none
  | _ => True

variable {s s' : Files} {a : FileAct} {ls : List FileAct} {table : Slots ℕ}
variable {f : LibaioFile} {k : ℕ} {op : FileOp} {accepted : Bool}

@[simp] theorem invokeStep_effects : (s.invokeStep k f op accepted).effects =
    if f.acts accepted op then s.effects ++ s.effect k f op else s.effects := by
  cases op <;> rfl

/-- The history only grows. -/
theorem next_effects (hn : s.next a = some s') : s.effects <+: s'.effects := by
  cases a with
  | openFile opened | openControlFile opened =>
    obtain rfl := Option.some.inj hn
    cases opened <;> exact List.prefix_rfl
  | invoke k op accepted =>
    obtain ⟨f, -, rfl⟩ := Option.map_eq_some_iff.mp hn
    rw [invokeStep_effects]
    split
    · exact List.prefix_append _ _
    · exact List.prefix_rfl
  | openOther n =>
    obtain rfl := Option.some.inj hn
    exact List.prefix_rfl
  | closeOther fd =>
    simp only [next] at hn
    split at hn
    · obtain rfl := Option.some.inj hn
      exact List.prefix_rfl
    · cases hn

/-! ### Open objects -/

/-- The number of an object that is not closed stands for its file. -/
def Held (s : Files) : Prop :=
  ∀ k f, s.objects[k]? = some f → f.closed = false → s.table.get f.fd = some (.file k)

theorem Held.initial (table : Slots ℕ) : Held (initial table) := by
  intro k f hf
  cases hf

theorem Held.openStep (h : Held s) (hasContext opened : Bool) :
    Held (s.openStep hasContext opened) := by
  cases opened with
  | false => exact h
  | true =>
    intro k f hf hopen
    show (s.table.insert _).get _ = _
    have hf : (s.objects ++ [(⟨s.table.lowest, hasContext, false, false⟩ : LibaioFile)])[k]? =
      some f := hf
    rcases Nat.lt_trichotomy k s.objects.length with hlt | rfl | hgt
    · rw [List.getElem?_append_left hlt] at hf
      exact Slots.get_insert_of_some (h k f hf hopen)
    · rw [List.getElem?_concat_length] at hf
      obtain rfl := Option.some.inj hf
      exact Slots.get_insert_lowest
    · have hlen : k < _ := (List.getElem?_eq_some_iff.mp hf).1
      rw [List.length_append, List.length_singleton] at hlen
      omega

/-- `close` takes its number from no object but its own: where that was closed
before, the number is free. -/
theorem Held.close (h : Held s) (hf : s.objects[k]? = some f)
    (ht : f.closed = true → s.table.get f.fd = none) :
    Held (s.invokeStep k f .close accepted) := by
  intro j g hg hopen
  show (s.table.remove f.fd).get g.fd = _
  have hg : (s.objects.set k { f with isOpen := false, closed := true })[j]? = some g := hg
  by_cases hj : k = j
  · subst hj
    rw [List.getElem?_set_self (List.getElem?_eq_some_iff.mp hf).1] at hg
    obtain rfl := Option.some.inj hg
    cases hopen
  · rw [List.getElem?_set_ne hj] at hg
    have hheld := h j g hg hopen
    cases hc : f.closed with
    | true =>
      rw [Slots.get_remove_of_none (ht hc)]
      exact hheld
    | false =>
      rw [Slots.get_remove_of_ne]
      · exact hheld
      · intro he
        rw [he, h k f hf hc] at hheld
        exact hj (Opening.file.inj (Option.some.inj hheld))

theorem Held.step (h : Held s) (ht : s.Timely a) (hn : s.next a = some s') : Held s' := by
  cases a with
  | openFile opened | openControlFile opened =>
    obtain rfl := Option.some.inj hn
    exact h.openStep _ _
  | invoke k op accepted =>
    obtain ⟨f, hf, rfl⟩ := Option.map_eq_some_iff.mp hn
    cases op with
    | close => exact h.close hf fun hc => ht f hf hc rfl
    | _ => exact h
  | openOther n =>
    obtain rfl := Option.some.inj hn
    exact fun k f hf hopen => Slots.get_insert_of_some (h k f hf hopen)
  | closeOther fd =>
    simp only [next] at hn
    split at hn
    · rename_i n hfd
      obtain rfl := Option.some.inj hn
      intro k f hf hopen
      have hheld := h k f hf hopen
      show (s.table.remove fd).get f.fd = _
      rw [Slots.get_remove_of_ne]
      · exact hheld
      · intro he
        rw [he, hfd] at hheld
        cases hheld
    · cases hn

/-! ### Which file a call affects -/

/-- A timely call affects its own file at most. -/
theorem OwnOnly.step (ho : OwnOnly s) (h : Held s) (ht : s.Timely a) (hn : s.next a = some s') :
    OwnOnly s' := by
  cases a with
  | openFile opened | openControlFile opened =>
    obtain rfl := Option.some.inj hn
    cases opened <;> exact ho
  | invoke k op accepted =>
    obtain ⟨f, hf, rfl⟩ := Option.map_eq_some_iff.mp hn
    intro e he
    rw [invokeStep_effects] at he
    split at he
    · rename_i hacts
      rcases List.mem_append.mp he with he | he
      · exact ho e he
      · obtain ⟨target, hget, rfl⟩ : ∃ target, s.table.get f.fd = some target ∧
            (⟨k, op, target, f.closed⟩ : Effect) = e := by
          simpa [effect] using he
        cases hc : f.closed with
        | true =>
          rw [ht f hf hc hacts] at hget
          cases hget
        | false =>
          rw [h k f hf hc] at hget
          exact ⟨(Option.some.inj hget).symm, rfl⟩
    · exact ho e he
  | openOther n =>
    obtain rfl := Option.some.inj hn
    exact ho
  | closeOther fd =>
    simp only [next] at hn
    split at hn
    · obtain rfl := Option.some.inj hn
      exact ho
    · cases hn

/-- A call that is not timely affects a file after its object's `close`. -/
theorem OwnOnly.timely (ho : OwnOnly s') (hn : s.next a = some s') : s.Timely a := by
  cases a with
  | invoke k op accepted =>
    intro f hf hc hacts
    rcases hget : s.table.get f.fd with - | target
    · rfl
    · obtain ⟨f', hf', rfl⟩ := Option.map_eq_some_iff.mp hn
      obtain rfl := Option.some.inj (hf.symm.trans hf')
      have hmem : (⟨k, op, target, f.closed⟩ : Effect) ∈
          (s.invokeStep k f op accepted).effects := by
        rw [invokeStep_effects, if_pos hacts]
        exact List.mem_append_right _ (by simp [effect, hget])
      have hlate : f.closed = false := (ho _ hmem).2
      rw [hc] at hlate
      cases hlate
  | _ => trivial

theorem OwnOnly.of_isPrefix (ho : OwnOnly s') (hp : s.effects <+: s'.effects) : OwnOnly s :=
  fun e he => ho e (hp.subset he)

/-- **Every call has affected only the file its object was opened on, and none after
`close`, if and only if no call was carried out on a closed object while its number
was open again.** -/
theorem own_only_iff (hr : Run next (fun _ _ => True) (initial table) ls s) :
    OwnOnly s ↔ Run next Timely (initial table) ls s := by
  constructor
  · intro ho
    exact (hr.of_end ho fun _ _ _ _ hn ho =>
      ⟨OwnOnly.of_isPrefix ho (next_effects hn), OwnOnly.timely ho hn⟩).1
  · intro ht
    refine (ht.invariant (I := fun s => Held s ∧ OwnOnly s) ⟨.initial table, ?_⟩ ?_).2
    · intro e he
      cases he
    · rintro s₁ a s₂ ⟨hheld, ho⟩ ht hn
      exact ⟨hheld.step ht hn, ho.step hheld ht hn⟩

/-! ### Small runs -/

/-- The descriptors of a process with its standard streams. -/
def stdio : Slots ℕ := ((Slots.empty.insert 0).insert 1).insert 2

/-- A file is closed twice and its number goes to a second file after that. -/
theorem own_only_reopened : ∃ s, Run next (fun _ _ => True) (initial stdio)
    [.openFile true, .invoke 0 .lock true, .invoke 0 .close true, .invoke 0 .close true,
      .openFile true, .invoke 1 (.write 0 512 (some 7)) true] s ∧
    s.effects = [⟨0, .lock, .file 0, false⟩, ⟨0, .close, .file 0, false⟩,
      ⟨1, .write 0 512 (some 7), .file 1, false⟩] ∧
    Run next Timely (initial stdio)
      [.openFile true, .invoke 0 .lock true, .invoke 0 .close true, .invoke 0 .close true,
        .openFile true, .invoke 1 (.write 0 512 (some 7)) true] s := by
  obtain ⟨s, hr, he⟩ := exists_run_of_exec next (fun _ _ => True) (initial stdio)
    [.openFile true, .invoke 0 .lock true, .invoke 0 .close true, .invoke 0 .close true,
      .openFile true, .invoke 1 (.write 0 512 (some 7)) true]
    (fun s => s.effects = [⟨0, .lock, .file 0, false⟩, ⟨0, .close, .file 0, false⟩,
      ⟨1, .write 0 512 (some 7), .file 1, false⟩]) (by decide)
  refine ⟨s, hr, he, (own_only_iff hr).mp ?_⟩
  intro e hmem
  rw [he] at hmem
  simp only [List.mem_cons, List.not_mem_nil, or_false] at hmem
  rcases hmem with rfl | rfl | rfl <;> exact ⟨rfl, rfl⟩

/-- A late `write` and a second `close` of one object, on the file of another. -/
theorem own_only_violated : ∃ s, Reaches next (fun _ _ => True) (initial stdio) s ∧
    ⟨0, .write 0 512 (some 7), .file 1, true⟩ ∈ s.effects ∧
    ⟨0, .close, .file 1, true⟩ ∈ s.effects ∧ s.table.get 3 = none ∧ ¬OwnOnly s := by
  obtain ⟨s, hr, hw, hc, hfd⟩ := exists_of_exec next (fun _ _ => True) (initial stdio)
    [.openFile true, .invoke 0 .close true, .openFile true,
      .invoke 0 (.write 0 512 (some 7)) true, .invoke 0 .close true]
    (fun s => ⟨0, .write 0 512 (some 7), .file 1, true⟩ ∈ s.effects ∧
      ⟨0, .close, .file 1, true⟩ ∈ s.effects ∧ s.table.get 3 = none) (by decide)
  refine ⟨s, hr, hw, hc, hfd, fun ho => ?_⟩
  have hlate : true = false := (ho _ hw).2
  cases hlate

end Files

end ArtemisNative
