/-
ArtemisNative/LocalRefs.lean

The local references of `blockedPoll`.

The JVM frees the local references of a native method when the method returns, and
`blockedPoll` returns when the context is closed.  For an event with a negative result it
makes a string of the error (`NewStringUTF`) and never deletes it.  So from one head of the
`while` loop to a later one the frame gains one reference for each such event, whether or not
there was a callback to pass the string to (`Run.localRefs_eq`); the frame is steady exactly
in the runs that handle none (`local_refs_iff`).

Nothing here depends on what the other threads, the kernel or the callbacks do, so the results
are about runs from any state.
-/
import ArtemisNative.Threads

namespace ArtemisNative

open Transition

variable {Tid : Type} [DecidableEq Tid] {cfg : Config} {s s' x : State Tid} {t p : Tid}
variable {ans : Answer} {l : Label Tid} {ls : List (Label Tid)} {f g : Frame} {n : ℕ}

/-! ### The frame -/

/-- The number of local references of a thread in `blockedPoll`, up to its exit from the
`while` loop. -/
def Pc.localRefs : Pc → Option ℕ
  | .blocked .lock => some 0
  | .blocked (.getEvents f) | .blocked (.event f _) => some f.localRefs
  | _ => none

/-- The step handles an event with a negative result in `blockedPoll` of thread `p`. -/
def handlesError (p : Tid) (s : State Tid) : Label Tid → Bool
  | .step t _ =>
    decide (t = p) && match s.pc p with
      | .blocked (.event f .onError) => decide ((s.events f.i).res < 0)
      | _ => false
  | _ => false

/-- Thread `p` calls no method; so it does not come back into `blockedPoll` once it has left
it. -/
def Stays (p : Tid) (_ : State Tid) (l : Label Tid) : Prop := ∀ m, l ≠ .call p m

theorem handlesError_of_ne (hl : l.tid? ≠ some p) : handlesError p s l = false := by
  cases l with
  | step t ans =>
    have hne : t ≠ p := fun h => hl (congrArg some h)
    simp [handlesError, hne]
  | _ => rfl

theorem handlesError_of_pc (h : ∀ f, s.pc p ≠ .blocked (.event f .onError)) :
    handlesError p s l = false := by
  cases l with
  | step t ans =>
    rw [handlesError]
    split
    · next f hpc => exact absurd hpc (h f)
    · exact Bool.and_false _
  | _ => rfl

/-! ### One step -/

/-- What handling an event adds. -/
theorem EventMoves.localRefs {st : Stage} (hm : EventMoves cfg s t ans f st s')
    (hpc : s.pc t = .blocked (.event f st)) (h : (s'.pc t).localRefs = some n) :
    n = f.localRefs + if handlesError t s (.step t ans) then 1 else 0 := by
  -- the head of the handler is where the error is looked at
  have hquiet : st ≠ .onError → handlesError t s (.step t ans) = false := by
    intro hst
    refine handlesError_of_pc fun g hg => hst ?_
    rw [hpc] at hg
    cases hg
    rfl
  have hmark : st = .onError →
      handlesError t s (.step t ans) = decide ((s.events f.i).res < 0) := by
    rintro rfl
    simp [handlesError, hpc]
  cases hm with
  | noError hres =>
    rw [State.pc_goto] at h
    rw [hmark rfl, decide_eq_false (by omega)]
    exact (Option.some.inj h).symm
  | errorNull hres _ | errorSkipped hres _ _ | errorCalled hres _ =>
    rw [State.pc_goto] at h
    rw [hmark rfl, decide_eq_true hres]
    exact (Option.some.inj h).symm
  | stopped =>
    rw [State.pc_goto] at h
    cases h
  | _ =>
    rw [State.pc_goto] at h
    rw [hquiet (by simp)]
    exact (Option.some.inj h).symm

theorem Stays.localRefs (hl : Stays p s l) (hn : next cfg s l = some s')
    (h : (s'.pc p).localRefs = some n) :
    ∃ k, (s.pc p).localRefs = some k ∧ n = k + if handlesError p s l then 1 else 0 := by
  by_cases htid : l.tid? = some p
  · cases next_moves hn with
    | call t o m _ hpc hm =>
      obtain rfl := Option.some.inj htid
      exact absurd rfl (hl m)
    | submit t ans q _ hpc hm =>
      obtain rfl := Option.some.inj htid
      cases hm <;> (rw [State.pc_goto] at h; cases h)
    | blocked t ans q _ hpc hm =>
      obtain rfl := Option.some.inj htid
      have hquiet : ∀ q, q = .lock ∨ (∃ f, q = .getEvents f) → s.pc t = .blocked q →
          handlesError t s (.step t ans) = false := by
        rintro q hq hpc
        refine handlesError_of_pc fun g hg => ?_
        rw [hpc] at hg
        rcases hq with rfl | ⟨f, rfl⟩ <;> cases hg
      cases hm with
      | locked _ =>
        rw [State.pc_goto] at h
        rw [hquiet _ (.inl rfl) hpc, hpc]
        exact ⟨0, rfl, (Option.some.inj h).symm⟩
      | readInterrupted f _ =>
        rw [hquiet _ (.inr ⟨f, rfl⟩) hpc]
        exact ⟨n, h, rfl⟩
      | read f k _ _ =>
        rw [State.pc_goto] at h
        rw [hquiet _ (.inr ⟨f, rfl⟩) hpc, hpc]
        exact ⟨f.localRefs, rfl, (Option.some.inj h).symm⟩
      | event f st _ hm =>
        rw [hpc]
        exact ⟨f.localRefs, rfl, hm.localRefs hpc h⟩
      | readFailed _ _ | unlocked _ =>
        rw [State.pc_goto] at h
        cases h
    | poll t ans q _ hpc hm =>
      obtain rfl := Option.some.inj htid
      cases hm <;> (rw [State.pc_goto] at h; cases h)
    | close t ans q _ hpc hm =>
      obtain rfl := Option.some.inj htid
      cases hm <;> (rw [State.pc_goto] at h; cases h)
    | complete k res r hr _ => cases htid
    | redeliver k ev _ => cases htid
    | setForceSyscall value => cases htid
    | closeDumbHandlers => cases htid
  · rw [handlesError_of_ne htid, ← next_pc_of_ne hn htid]
    exact ⟨n, h, rfl⟩

/-! ### A run -/

/-- The references of the frame are those it had, and one for each error handled since. -/
theorem Run.localRefs_eq (hr : Run (next cfg) (Stays p) s ls x)
    (h : (x.pc p).localRefs = some n) :
    ∃ k, (s.pc p).localRefs = some k ∧ n = k + tally (next cfg) (handlesError p) s ls := by
  induction hr with
  | nil => exact ⟨n, h, rfl⟩
  | cons hl hn _ ih =>
    obtain ⟨k', hk', rfl⟩ := ih h
    obtain ⟨k, hk, rfl⟩ := Stays.localRefs hl hn hk'
    refine ⟨k, hk, ?_⟩
    simp only [tally, hn]
    omega

/-- **From one head of the `while` loop on, all later heads have its number of local
references exactly if no event with a negative result is handled in between.** -/
theorem local_refs_iff (hs : s.pc p = .blocked (.getEvents f))
    (hr : Run (next cfg) (Stays p) s ls x) (hx : x.pc p = .blocked (.getEvents g)) :
    (∀ ls₁ ls₂ y f₁, ls = ls₁ ++ ls₂ → Run (next cfg) (Stays p) s ls₁ y →
        y.pc p = .blocked (.getEvents f₁) → f₁.localRefs = f.localRefs) ↔
      Run (next cfg) (fun s l => Stays p s l ∧ handlesError p s l = false) s ls x := by
  have heq : ∀ {ls₁ : List (Label Tid)} {y : State Tid} {f₁ : Frame},
      Run (next cfg) (Stays p) s ls₁ y → y.pc p = .blocked (.getEvents f₁) →
        f₁.localRefs = f.localRefs + tally (next cfg) (handlesError p) s ls₁ := by
    intro ls₁ y f₁ hy hpc
    obtain ⟨k, hk, h⟩ := Run.localRefs_eq hy (n := f₁.localRefs) (by rw [hpc]; rfl)
    rw [hs] at hk
    rwa [← Option.some.inj hk] at h
  rw [← hr.tally_eq_zero_iff]
  constructor
  · intro h
    have hend := h ls [] x g (List.append_nil ls).symm hr hx
    rw [heq hr hx] at hend
    omega
  · rintro h ls₁ ls₂ y f₁ rfl hy hpc
    -- the labels up to `y` are among those of the run
    obtain ⟨z, hz, -⟩ := ((hr.tally_eq_zero_iff _).mp h).split
    have hnone := (hy.tally_eq_zero_iff (handlesError p)).mpr (hy.unique hz ▸ hz)
    rw [heq hy hpc, hnone, Nat.add_zero]

/-! ### Two runs -/

omit [DecidableEq Tid] in
theorem stays_iff : Stays p s l ↔ ∀ t m, l = .call t m → t ≠ p := by
  constructor
  · rintro h t m rfl rfl
    exact h m rfl
  · intro h m hm
    exact h p m hm rfl

instance : (p : Tid) → (s : State Tid) → DecidablePred (Stays p s)
  | p, _, .call t m => decidable_of_iff (t ≠ p)
      ⟨fun h => stays_iff.mpr fun _ _ he => by cases he; exact h,
        fun h => stays_iff.mp h t m rfl⟩
  | _, _, .step _ _ | _, _, .complete _ _ | _, _, .redeliver _ | _, _, .setForceSyscall _
  | _, _, .closeDumbHandlers => isTrue (stays_iff.mpr fun _ _ h => by cases h)

/-- Thread `true` has submitted a write, and thread `false` is at the head of its loop. -/
def atHead : List (Label Bool) :=
  submits true ⟨.pwrite, 5, 0, 512, some 1⟩ ++ [.call false .poll, .step false {}]

/-- The write is completed, and thread `false` handles it and goes on to the next batch. -/
def toNextHead (res : ℤ) : List (Label Bool) :=
  [.complete 0 res, .step false { events := 1 }] ++ steps false 10

/-- The write succeeds. -/
theorem local_refs_steady : ∃ s : State Bool,
    Reaches (next ⟨1, true, true⟩) (fun _ _ => True) (.sample ⟨1, true, true⟩) s ∧
      s.pc false = .blocked (.getEvents ⟨0, 0, -1, false, 0⟩) ∧
      ∀ ls₁ ls₂ y f₁, toNextHead 512 = ls₁ ++ ls₂ →
        Run (next ⟨1, true, true⟩) (Stays false) s ls₁ y →
          y.pc false = .blocked (.getEvents f₁) → f₁.localRefs = 0 := by
  obtain ⟨s, hr, hs, hnext⟩ := exists_run_of_exec (next ⟨1, true, true⟩) (fun _ _ => True)
    (.sample ⟨1, true, true⟩) atHead
    (fun s => s.pc false = .blocked (.getEvents ⟨0, 0, -1, false, 0⟩) ∧
      ((exec (next ⟨1, true, true⟩)
        (fun s l => Stays false s l ∧ handlesError false s l = false) s (toNextHead 512)).any
          fun x => decide (x.pc false = .blocked (.getEvents ⟨1, 1, 5, false, 0⟩))) = true)
    (by decide)
  obtain ⟨x, hr', hx⟩ := exists_run_of_exec _ _ s (toNextHead 512) _ hnext
  exact ⟨s, ⟨atHead, hr⟩, hs,
    (local_refs_iff hs (hr'.mono fun _ _ h => h.1) hx).mpr hr'⟩

/-- The write fails: its string is still there when the next batch is read. -/
theorem local_refs_grow : ∃ s x : State Bool, ∃ f g : Frame,
    Reaches (next ⟨1, true, true⟩) (fun _ _ => True) (.sample ⟨1, true, true⟩) s ∧
      s.pc false = .blocked (.getEvents f) ∧
      Run (next ⟨1, true, true⟩) (Stays false) s (toNextHead (-5)) x ∧
      x.pc false = .blocked (.getEvents g) ∧ g.localRefs ≠ f.localRefs := by
  obtain ⟨s, hr, hs, hnext⟩ := exists_run_of_exec (next ⟨1, true, true⟩) (fun _ _ => True)
    (.sample ⟨1, true, true⟩) atHead
    (fun s => s.pc false = .blocked (.getEvents ⟨0, 0, -1, false, 0⟩) ∧
      ((exec (next ⟨1, true, true⟩) (Stays false) s (toNextHead (-5))).any
        fun x => decide (x.pc false = .blocked (.getEvents ⟨1, 1, 5, false, 1⟩))) = true)
    (by decide)
  obtain ⟨x, hr', hx⟩ := exists_run_of_exec _ _ s (toNextHead (-5)) _ hnext
  exact ⟨s, x, _, _, ⟨atHead, hr⟩, hs, hr', hx, by decide⟩

end ArtemisNative
