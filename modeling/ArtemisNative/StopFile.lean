/-
ArtemisNative/StopFile.lean

The stop file and `closeDumbHandlers`.

`JNI_OnLoad` makes the stop file and keeps its descriptor in `dumbWriteHandler`,
where `0` stands for "already closed".  `closeDumbHandlers` writes that mark first
and then closes `dumbWriteHandler`, which is now `0`.  So the first cleanup closes
descriptor `0` of the process, whatever it stands for, and removes the path of
the stop file; the stop file itself is never closed by the library
(`stop_file_open`).  Where `mkstemp` has returned `0`, no cleanup does anything.
Either way the promise is broken by the first cleanup, and only by it
(`stop_file_kept_iff`).
-/
import ArtemisNative.Library

namespace ArtemisNative

open Transition

namespace Library

variable {Tid : Type} [DecidableEq Tid] {L L' : Library Tid} {a : Act Tid}
variable {files : Slots OpenFile} {P : Library Tid → Act Tid → Prop}

/-! ### What a cleanup does -/

/-- What only `closeDumbHandlers` changes. -/
def stop (L : Library Tid) := (L.dumbWriteHandler, L.dumbPath, L.cleanups, L.closes)

/-- An act is a cleanup, or it leaves the marker and the histories alone. -/
theorem next_stop (hn : L.next a = some L') :
    (L.CleansUp a ∧ L'.stop = L.closeDumbHandlers.stop ∧ L'.files = L.closeDumbHandlers.files) ∨
      (¬L.CleansUp a ∧ L'.stop = L.stop) := by
  cases next_moves hn with
  | shutdownHook t ans ht => exact .inl ⟨ht, rfl, rfl⟩
  | unload => exact .inl ⟨rfl, rfl, rfl⟩
  | increment t ans x ht | addTotal t ans c o ht _ | inside t ans c o s ht _ _
  | subTotal t ans c o ht _ | decrement t ans ht | setFlag t ans ht | readContexts t ans ht
  | readFlag t ans ht =>
    refine .inr ⟨fun hc => ?_, rfl⟩
    have hc : L.pc t = .shutdownHook := hc
    rw [ht] at hc
    cases hc
  | notAttached => exact .inr ⟨nofun, rfl⟩
  | _ => exact .inr ⟨id, rfl⟩

omit [DecidableEq Tid] in
/-- The cleanup as the code does it: the marker is reset before it is used. -/
theorem closeDumbHandlers_of_ne (h : L.dumbWriteHandler ≠ 0) :
    L.closeDumbHandlers = { L with
      dumbWriteHandler := 0
      dumbPath := false
      files := L.files.remove 0
      cleanups := L.cleanups + 1
      closes := L.closes ++ [(0, L.files.get 0)] } := by
  simp [closeDumbHandlers, closeFd, fileOf, h]

omit [DecidableEq Tid] in
theorem closeDumbHandlers_of_eq (h : L.dumbWriteHandler = 0) :
    L.closeDumbHandlers = { L with cleanups := L.cleanups + 1 } := by
  simp [closeDumbHandlers, h]

/-! ### The states of the stop file -/

/-- Before the first cleanup; after one that had nothing to do since `mkstemp` had
returned `0`; after one that has closed descriptor `0` instead. -/
inductive StopFile (files : Slots OpenFile) (L : Library Tid) : Prop
  | loaded (hcl : L.cleanups = 0) (hfd : L.dumbWriteHandler = files.lowest) (hc : L.closes = [])
      (hp : L.dumbPath = true)
  | skipped (hcl : 0 < L.cleanups) (hfd : L.dumbWriteHandler = 0) (hzero : files.lowest = 0)
      (hc : L.closes = [])
  | missed (file : Option OpenFile) (hcl : 0 < L.cleanups) (hfd : L.dumbWriteHandler = 0)
      (hpos : files.lowest ≠ 0) (hc : L.closes = [(0, file)])

omit [DecidableEq Tid] in
theorem StopFile.congr (h : StopFile files L) (hs : L'.stop = L.stop) : StopFile files L' := by
  simp only [stop, Prod.mk.injEq] at hs
  obtain ⟨hfd', hp', hcl', hc'⟩ := hs
  cases h with
  | loaded hcl hfd hc hp =>
    exact .loaded (hcl'.trans hcl) (hfd'.trans hfd) (hc'.trans hc) (hp'.trans hp)
  | skipped hcl hfd hzero hc => exact .skipped (hcl' ▸ hcl) (hfd'.trans hfd) hzero (hc'.trans hc)
  | missed file hcl hfd hpos hc =>
    exact .missed file (hcl' ▸ hcl) (hfd'.trans hfd) hpos (hc'.trans hc)

omit [DecidableEq Tid] in
theorem StopFile.closeDumbHandlers (h : StopFile files L) :
    StopFile files L.closeDumbHandlers := by
  cases h with
  | loaded hcl hfd hc hp =>
    by_cases hzero : files.lowest = 0
    · have hfd : L.dumbWriteHandler = 0 := by simpa [hzero] using hfd
      rw [closeDumbHandlers_of_eq hfd]
      exact .skipped (Nat.succ_pos _) hfd hzero hc
    · have hne : L.dumbWriteHandler ≠ 0 := by
        rw [hfd]
        exact_mod_cast hzero
      rw [closeDumbHandlers_of_ne hne]
      refine .missed (L.files.get 0) (Nat.succ_pos _) rfl hzero ?_
      show L.closes ++ _ = _
      rw [hc]
      rfl
  | skipped hcl hfd hzero hc =>
    rw [closeDumbHandlers_of_eq hfd]
    exact .skipped (Nat.succ_pos _) hfd hzero hc
  | missed file hcl hfd hpos hc =>
    rw [closeDumbHandlers_of_eq hfd]
    exact .missed file (Nat.succ_pos _) hfd hpos hc

theorem StopFile.step (h : StopFile files L) (hn : L.next a = some L') : StopFile files L' := by
  rcases next_stop hn with ⟨-, hs, -⟩ | ⟨-, hs⟩
  · exact h.closeDumbHandlers.congr hs
  · exact h.congr hs

omit [DecidableEq Tid] in
theorem StopFile.onLoad (files : Slots OpenFile) :
    StopFile files (JNI_OnLoad files : Library Tid) :=
  .loaded rfl rfl rfl rfl

theorem StopFile.of_reaches (hr : Reaches next P (JNI_OnLoad files) L) : StopFile files L :=
  hr.invariant (.onLoad files) fun _ _ _ h _ hn => h.step hn

/-! ### What is promised -/

/-- The only descriptor `closeDumbHandlers` closes is the one `mkstemp` returned,
once and together with its path, and no other file of the process. -/
structure StopFileKept (files : Slots OpenFile) (L : Library Tid) : Prop where
  only : ∀ x ∈ L.closes, x.1 = files.lowest
  once : 0 < L.cleanups → L.closes.map Prod.fst = [(files.lowest : ℤ)] ∧ L.dumbPath = false
  before : L.cleanups = 0 → L.closes = [] ∧ L.dumbPath = true
  others : ∀ x ∈ L.closes, x.2 = none ∨ x.2 = some .stopFile

/-- **The promise holds if and only if no cleanup has run yet**, neither by
`shutdownHook` nor by `JNI_OnUnload`. -/
theorem stop_file_kept_iff (hr : Reaches next (fun _ _ => True) (JNI_OnLoad files) L) :
    StopFileKept files L ↔ L.cleanups = 0 := by
  constructor
  · intro h
    cases StopFile.of_reaches hr with
    | loaded hcl hfd hc hp => exact hcl
    | skipped hcl hfd hzero hc =>
      -- the descriptor `0` of the stop file reads as "already closed"
      have honce := (h.once hcl).1
      rw [hc] at honce
      cases honce
    | missed file hcl hfd hpos hc =>
      have honly : (0 : ℤ) = files.lowest :=
        h.only (0, file) (by rw [hc]; exact List.mem_singleton_self _)
      omega
  · intro hcl
    cases StopFile.of_reaches hr with
    | loaded _ hfd hc hp =>
      have hnone : ∀ x, x ∉ L.closes := by simp [hc]
      refine ⟨fun x hx => ?_, fun hpos => ?_, fun _ => ⟨hc, hp⟩, fun x hx => ?_⟩
      · exact absurd hx (hnone x)
      · omega
      · exact absurd hx (hnone x)
    | skipped hpos _ _ _ | missed _ hpos _ _ _ => omega

theorem stop_file_kept_loaded : ∃ L : Library Bool,
    Reaches next (fun _ _ => True) (JNI_OnLoad stdio) L ∧ L.objects.length = 1 ∧
      StopFileKept stdio L := by
  obtain ⟨L, hr, hlen, hcl⟩ := exists_of_exec next (fun _ _ => True) (JNI_OnLoad stdio)
    (constructs false 2) (fun L : Library Bool => L.objects.length = 1 ∧ L.cleanups = 0) (by decide)
  exact ⟨L, hr, hlen, (stop_file_kept_iff hr).mpr hcl⟩

/-- After the shutdown hook the standard input of the process is closed, and the
stop file is not. -/
theorem stop_file_missed : ∃ L : Library Bool,
    Reaches next (fun _ _ => True) (JNI_OnLoad stdio) L ∧ L.hooks = 1 ∧
      L.closes = [(0, some (.other 0))] ∧ L.fileOf 0 = none ∧ L.fileOf 3 = some .stopFile ∧
      ¬StopFileKept stdio L := by
  obtain ⟨L, hr, hcl, hh, hc, hzero, hthree⟩ := exists_of_exec next (fun _ _ => True)
    (JNI_OnLoad stdio) (.shutdown true :: acts true 4)
    (fun L : Library Bool => L.cleanups = 1 ∧ L.hooks = 1 ∧ L.closes = [(0, some (.other 0))] ∧
      L.fileOf 0 = none ∧ L.fileOf 3 = some .stopFile) (by decide)
  refine ⟨L, hr, hh, hc, hzero, hthree, fun h => ?_⟩
  have honce := (h.once (by omega)).1
  rw [hc] at honce
  exact absurd honce (by decide)

/-! ### The stop file stays open -/

/-- The rest of the process does not close the descriptor `fd`. -/
def Spares (fd : ℤ) : Act Tid → Prop
  | .closeFile fd' => fd' ≠ fd
  | _ => True

/-- Only a cleanup, an `open` and a `close` touch the descriptors. -/
theorem next_files (hn : L.next a = some L') :
    L'.files = L.files ∨ (∃ n, a = .openFile n ∧ L'.files = L.files.insert (.other n)) ∨
      (∃ fd, a = .closeFile fd ∧ L'.files = (L.closeFd fd).files) ∨
      (L.CleansUp a ∧ L'.files = L.closeDumbHandlers.files) := by
  cases next_moves hn with
  | openFile n => exact .inr (.inl ⟨n, rfl, rfl⟩)
  | closeFile fd => exact .inr (.inr (.inl ⟨fd, rfl, rfl⟩))
  | shutdownHook t ans ht => exact .inr (.inr (.inr ⟨ht, rfl⟩))
  | unload => exact .inr (.inr (.inr ⟨rfl, rfl⟩))
  | _ => exact .inl rfl

omit [DecidableEq Tid] in
/-- A cleanup takes the stop file from no descriptor: it closes `0`, and only where
`mkstemp` has returned another one. -/
theorem StopFile.get_lowest (h : StopFile files L) :
    L.closeDumbHandlers.files.get files.lowest = L.files.get files.lowest := by
  by_cases hfd : L.dumbWriteHandler = 0
  · rw [closeDumbHandlers_of_eq hfd]
  · rw [closeDumbHandlers_of_ne hfd]
    refine Slots.get_remove_of_ne fun hzero => ?_
    cases h with
    | loaded _ hlow _ _ =>
      rw [hzero] at hlow
      exact hfd hlow
    | skipped _ hzero' _ _ | missed _ _ hzero' _ _ => exact hfd hzero'

/-- The library never closes the stop file. -/
theorem stop_file_open
    (hr : Reaches next (fun _ a => Spares files.lowest a) (JNI_OnLoad files) L) :
    L.fileOf files.lowest = some .stopFile := by
  have hget : L.files.get files.lowest = some .stopFile := by
    refine (hr.invariant (I := fun L => StopFile files L ∧
      L.files.get files.lowest = some .stopFile) ⟨.onLoad files, Slots.get_insert_lowest⟩ ?_).2
    rintro L₁ a L₂ ⟨hstop, hget⟩ hspare hn
    refine ⟨hstop.step hn, ?_⟩
    rcases next_files hn with hf | ⟨n, -, hf⟩ | ⟨fd, rfl, hf⟩ | ⟨-, hf⟩ <;> rw [hf]
    · exact hget
    · exact Slots.get_insert_of_some hget
    · simp only [closeFd]
      split
      · rename_i hpos
        rw [Slots.get_remove_of_ne]
        · exact hget
        · intro he
          have hne : fd ≠ files.lowest := hspare
          omega
      · exact hget
    · exact hstop.get_lowest.trans hget
  simpa [fileOf] using hget

end Library

end ArtemisNative
