/-
ArtemisNative/Lifetime.lean

Native code and the memory of the context.

`deleteContext` frees the control block that every other native method works
on.  What keeps the other threads out is the flag `closed`, and it is looked at
in Java, before the native method is called: by `submitWrite` and `submitRead`
before they wait for a permit, by `poll()` before it waits for `pollLock`, and
by `poll(callbacks, ..)` not at all.  The native code itself looks at `pollLock`
only.

So a thread can be behind its look at the flag, or never take one, when the
context is freed.  `FreesAlone` is the condition on the steps of a run under
which none is, and `freed_unused_iff` says that it is the exact one.
-/
import ArtemisNative.Threads

namespace ArtemisNative

open Transition

variable {Tid : Type} [DecidableEq Tid] {cfg : Config} {s s' : State Tid} {t u : Tid}
variable {ans : Answer} {l : Label Tid} {ls : List (Label Tid)}

/-! ### Inside native code -/

/-- The thread is inside the native `submitWrite`, `submitRead`, `poll` or
`blockedPoll`, and works on the control block before it leaves: `poll` does not
behind its last event. -/
def Pc.native : Pc → Bool
  | .submit (.acquire _) | .poll (.release _ _ _) => false
  | .poll (.event f .onError) => f.i < f.result
  | .submit _ | .blocked _ | .poll _ => true
  | _ => false

/-- A context that has been freed is not in use. -/
def FreedUnused (s : State Tid) : Prop := s.freed = true → ∀ t, (s.pc t).native = false

/-- The condition on a step: `deleteContext` frees the context when no other
thread is in native code, and afterwards no thread enters it by
`poll(callbacks, ..)`, or by acquiring a permit after an earlier look at the
flag. -/
def FreesAlone (cfg : Config) (s : State Tid) : Label Tid → Prop
  | .call _ (.pollInto _ _ _) => s.freed = false
  | .step t ans =>
    (s.pc t = .close .free → ∀ u, u ≠ t → (s.pc u).native = false) ∧
    (s.freed = true → ∀ a, s.pc t = .submit (.acquire a) →
      cfg.useSemaphore = true ∧ ans.interrupted = true)
  | _ => True

/-! ### What a step does -/

/-- How a thread gets into native code: behind a look at the flag, by
`poll(callbacks, ..)` without one, or once it has its permit. -/
def Enters (cfg : Config) (s : State Tid) (t : Tid) : Label Tid → Prop
  | .call u m => u = t ∧ (s.closed = false ∨ ∃ callbacks min max, m = .pollInto callbacks min max)
  | .step u ans => u = t ∧ ∃ a, s.pc t = .submit (.acquire a) ∧
      ¬(cfg.useSemaphore = true ∧ ans.interrupted = true)
  | _ => False

/-- A thread that goes on to `q` without having entered native code. -/
theorem native_goto {q : Pc} (hpc : s'.pc = Function.update s.pc t q)
    (hq : q.native = true → (s.pc t).native = true ∨ Enters cfg s t l) (u : Tid)
    (hu : (s'.pc u).native = true) : (s.pc u).native = true ∨ Enters cfg s u l := by
  rw [hpc] at hu
  by_cases hut : u = t
  · subst hut
    rw [Function.update_self] at hu
    exact hq hu
  · rw [Function.update_of_ne hut] at hu
    exact .inl hu

/-- The last step of `deleteContext` frees the context; no other step does, and
no other way leads into native code than `Enters`. -/
theorem next_native (hn : next cfg s l = some s') :
    (∃ t ans, l = .step t ans ∧ s.pc t = .close .free ∧
      s' = { s with freed := true }.goto t (.idle .returned)) ∨
    (s'.freed = s.freed ∧
      ∀ u, (s'.pc u).native = true → (s.pc u).native = true ∨ Enters cfg s u l) := by
  cases next_moves hn with
  | call t o m _ hpc hm =>
    cases hm with
    | submit a hcl | poll hcl => exact .inr ⟨rfl, native_goto rfl fun _ => .inr ⟨rfl, .inl hcl⟩⟩
    | pollInto callbacks min max =>
      exact .inr ⟨rfl, native_goto rfl fun _ => .inr ⟨rfl, .inr ⟨callbacks, min, max, rfl⟩⟩⟩
    | _ => exact .inr ⟨rfl, native_goto rfl nofun⟩
  | submit t ans q _ hpc hm =>
    cases hm with
    | acquired a _ hint =>
      refine .inr ⟨rfl, native_goto rfl fun _ => .inr ⟨rfl, a, hpc, fun h => ?_⟩⟩
      rw [hint] at h
      cases h.2
    | unlimited a hsem =>
      refine .inr ⟨rfl, native_goto rfl fun _ => .inr ⟨rfl, a, hpc, fun h => ?_⟩⟩
      rw [hsem] at h
      cases h.1
    | interrupted a _ _ => exact .inr ⟨rfl, native_goto rfl nofun⟩
    | _ => exact .inr ⟨rfl, native_goto rfl fun _ => .inl (by rw [hpc]; rfl)⟩
  | blocked t ans q _ hpc hm =>
    have hnat : (s.pc t).native = true := by rw [hpc]; rfl
    cases hm with
    | readInterrupted f _ => exact .inr ⟨rfl, fun u hu => .inl hu⟩
    | event f st _ hm => cases hm <;> exact .inr ⟨rfl, native_goto rfl fun _ => .inl hnat⟩
    | _ => exact .inr ⟨rfl, native_goto rfl fun _ => .inl hnat⟩
  | poll t ans q _ hpc hm =>
    cases hm with
    | threw n callbacks | released n callbacks _ _ | notReleased n callbacks _ =>
      exact .inr ⟨rfl, native_goto rfl nofun⟩
    | batchEnd f _ => exact .inr ⟨rfl, native_goto rfl nofun⟩
    | noError f hlt _ | errorSkipped f hlt _ _ | errorCalled f hlt _ _ _ =>
      refine .inr ⟨rfl, native_goto rfl fun _ => .inl ?_⟩
      rw [hpc]
      exact decide_eq_true hlt
    | _ => exact .inr ⟨rfl, native_goto rfl fun _ => .inl (by rw [hpc]; rfl)⟩
  | close t ans q _ hpc hm =>
    cases hm with
    | freed => exact .inl ⟨t, ans, rfl, hpc, rfl⟩
    | _ => exact .inr ⟨rfl, native_goto rfl nofun⟩
  | complete k res r hr _ => exact .inr ⟨rfl, fun u hu => .inl hu⟩
  | redeliver k ev _ => exact .inr ⟨rfl, fun u hu => .inl hu⟩
  | setForceSyscall value => exact .inr ⟨rfl, fun u hu => .inl hu⟩
  | closeDumbHandlers => exact .inr ⟨rfl, fun u hu => .inl hu⟩

/-- The condition is enough for one step. -/
theorem FreedUnused.step (h : FreedUnused s) (hsole : SoleCloser s) (hP : FreesAlone cfg s l)
    (hn : next cfg s l = some s') : FreedUnused s' := by
  intro hfreed u
  rcases next_native hn with ⟨t, ans, rfl, hpc, rfl⟩ | ⟨hfr, hnat⟩
  · by_cases hut : u = t
    · subst hut
      simp [State.goto, Pc.native]
    · simp only [State.goto, Function.update_of_ne hut]
      exact hP.1 hpc u hut
  · rw [hfr] at hfreed
    rw [Bool.eq_false_iff]
    intro hu
    rcases hnat u hu with hu | hent
    · rw [h hfreed u] at hu
      cases hu
    · cases l with
      | call t m =>
        obtain ⟨rfl, hcl | ⟨callbacks, min, max, rfl⟩⟩ := hent
        · rw [(hsole.fresh hcl).2.2] at hfreed
          cases hfreed
        · rw [show s.freed = false from hP] at hfreed
          cases hfreed
      | step t ans =>
        obtain ⟨rfl, a, hpc, hgo⟩ := hent
        exact hgo (hP.2 hfreed a hpc)
      | _ => exact hent

/-- It is also necessary. -/
theorem FreesAlone.of_freedUnused (hn : next cfg s l = some s') (h' : FreedUnused s') :
    FreesAlone cfg s l := by
  cases l with
  | call t m =>
    cases m with
    | pollInto callbacks min max =>
      show s.freed = false
      rw [Bool.eq_false_iff]
      intro hfreed
      cases next_moves hn with
      | call _ o _ _ hpc hm =>
        cases hm with
        | pollInto =>
          have := h' hfreed t
          simp [State.goto, Pc.native] at this
    | _ => trivial
  | step t ans =>
    constructor
    · intro hpc u hut
      have hstay : s'.pc u = s.pc u := next_pc_of_ne hn fun he => hut (Option.some.inj he).symm
      rw [next, hpc] at hn
      obtain rfl := Option.some.inj hn
      rw [← hstay]
      exact h' rfl u
    · intro hfreed a hpc
      cases next_moves hn with
      | submit _ _ q _ hpc' hm =>
        obtain rfl := Pc.submit.inj (hpc ▸ hpc')
        cases hm with
        | interrupted _ hsem hint => exact ⟨hsem, hint⟩
        | acquired _ _ _ _ | unlimited _ _ =>
          have := h' hfreed t
          simp [State.goto, Pc.native] at this
      | blocked _ _ q _ hpc' _ => rw [hpc] at hpc'; cases hpc'
      | poll _ _ q _ hpc' _ => rw [hpc] at hpc'; cases hpc'
      | close _ _ q _ hpc' _ => rw [hpc] at hpc'; cases hpc'
  | _ => trivial

/-! ### Whole runs -/

omit [DecidableEq Tid] in
theorem FreedUnused.initial (env : Process) : FreedUnused (.initial cfg env : State Tid) := nofun

/-- **A run uses no freed context exactly when every step of it meets
`FreesAlone`**: `deleteContext` frees the control block only when no other thread
is in native code, and afterwards no thread calls `poll(callbacks, ..)` or goes
on with a submission whose look at the flag was earlier. -/
theorem freed_unused_iff {env : Process} :
    Run (next cfg) (fun s l => ∀ s', next cfg s l = some s' → FreedUnused s')
      (.initial cfg env) ls s ↔
    Run (next cfg) (FreesAlone cfg) (.initial cfg env) ls s := by
  have h₀ : FreedUnused (.initial cfg env : State Tid) ∧ SoleCloser (.initial cfg env : State Tid) :=
    ⟨.initial env, .initial env⟩
  constructor
  · intro hr
    refine hr.mono_of_invariant (I := fun s => FreedUnused s ∧ SoleCloser s) h₀ ?_
    rintro s l s' ⟨-, hsole⟩ hP hn
    exact ⟨⟨hP s' hn, hsole.step hn⟩, .of_freedUnused hn (hP s' hn)⟩
  · intro hr
    refine hr.mono_of_invariant (I := fun s => FreedUnused s ∧ SoleCloser s) h₀ ?_
    rintro s l s' ⟨h, hsole⟩ hP hn
    refine ⟨⟨h.step hsole hP hn, hsole.step hn⟩, fun s'' hn' => ?_⟩
    exact h.step hsole hP hn'

/-- A thread closes the context, and the sentinel is the only request. -/
def closesDown : List (Label Bool) :=
  .call false .close :: steps false 4 ++ [.complete 0 0] ++ steps false 2 ++
    [.step false { events := 1 }] ++ steps false 5

/-- `poll(callbacks, ..)` on a closed context, and a write that was called
before `close` and goes on behind it. -/
theorem freed_context_in_use :
    (∃ s : State Bool, Run (next ⟨1, false, true⟩) Orderly (.sample ⟨1, false, true⟩)
      (closesDown ++ [.call true (.pollInto [none] 1 1)]) s ∧
      s.freed = true ∧ (s.pc true).native = true) ∧
    ∃ s : State Bool, Run (next ⟨1, false, true⟩) Orderly (.sample ⟨1, false, true⟩)
      (.call true (.submit ⟨.pwrite, 5, 0, 512, some 1⟩) :: closesDown ++ [.step true {}]) s ∧
      s.freed = true ∧ (s.pc true).native = true :=
  ⟨exists_run_of_exec _ _ _ _ (fun s : State Bool => s.freed = true ∧ (s.pc true).native = true)
    (by decide),
    exists_run_of_exec _ _ _ _ (fun s : State Bool => s.freed = true ∧ (s.pc true).native = true)
    (by decide)⟩

end ArtemisNative
