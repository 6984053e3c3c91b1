/-
ArtemisNative/Contexts.lean

The contexts of a process do not disturb each other.

The contexts share the global variables of the native library, the counters of
the class and the threads.  Still an act of the process is, for each context, at
most one step of its own (`Library.next_advances`), and a step that only comes
from elsewhere changes a shared variable.  So if the acts that concern a context
keep to some discipline, the context has had a run under that discipline
(`Library.context_has_own_run`): the other contexts may be used by other rules,
their callbacks throw, their events come twice.

In a `Library` each context has memory of its own for ever, while in the program
memory that is freed comes back: a thread that is late in a context which has been
deleted may find itself in the next one.  So the others must be used in such a way
that nothing but their own memory is touched (`Library.Contained`).

What is proved of a single context thereby holds in a process with any number of
them; `Library.contexts_are_completion_queues` is one case.
-/
import ArtemisNative.Library
import ArtemisNative.Completions
import ArtemisNative.References

namespace ArtemisNative

open Transition

variable {Tid : Type} [DecidableEq Tid] {cfg : Config}

/-! ### What a step can touch -/

/-- `deleteContext` is behind `io_queue_release`, so that the kernel context, the iocbs or
the control block may belong to another context soon. -/
def State.Released (s : State Tid) : Prop :=
  s.freed = true ∨ ∃ u, s.pc u = .close .destroy ∨ s.pc u = .close .free

/-- The next step is one on the native context. -/
def Pc.onNative : Pc → Bool
  | .idle _ | .submit (.acquire _) | .blocked (.event _ (.inDone _))
  | .blocked (.event _ (.release _)) | .poll (.release _ _ _) | .close .tryAcquire => false
  | _ => true

/-- The step touches nothing but what belongs to the context: it does not use the context
when it is released, stores no more events than the buffer has room for, frees no iocb twice,
and uses or deletes no reference that has been deleted. -/
def Contained (cfg : Config) (s : State Tid) : Label Tid → Prop
  | .step t ans =>
    (s.Released → (s.pc t).onNative = true → s.pc t = .close .destroy ∨ s.pc t = .close .free) ∧
      ((s.pc t).atRead = true → ans.events ≤ cfg.queueSize) ∧
      (s.pc t = .close .destroy → s.pool.iocbDestroy.Nodup) ∧
      (s.uses t).all (fun data =>
        data == .null || data == .stop || (s.refs.deref data).isSome) = true
  | .redeliver _ => ¬s.Released
  | _ => True

instance [Fintype Tid] (s : State Tid) : Decidable s.Released :=
  inferInstanceAs (Decidable (_ ∨ _))

instance [Fintype Tid] (s : State Tid) : DecidablePred (Contained cfg s)
  | .step _ _ => inferInstanceAs (Decidable (_ ∧ _ ∧ _ ∧ _))
  | .redeliver _ => inferInstanceAs (Decidable (¬_))
  | .call _ _ | .complete _ _ | .setForceSyscall _ | .closeDumbHandlers => isTrue trivial

namespace Library

variable {L L' : Library Tid} {a : Act Tid} {d : ℕ} {o : Instance Tid} {l : Label Tid}
variable {files : Slots OpenFile}

/-- The discipline `P` of context `d`, as one of the process: what an act may be for
this context obeys `P`. -/
def Keeps (P : State Tid → Label Tid → Prop) (d : ℕ) (L : Library Tid) (a : Act Tid) : Prop :=
  ∀ o l, L.objects[d]? = some o → L.Projects d a l → P (L.view o) l

/-- What an act may be for any of the contexts touches nothing of the others. -/
def Contained (L : Library Tid) (a : Act Tid) : Prop :=
  ∀ c o l, L.objects[c]? = some o → L.Projects c a l →
    ArtemisNative.Contained o.cfg (L.view o) l

/-- Context `d`, if there is one yet, has had a run under `P`. -/
def OwnRun (P : State Tid → Label Tid → Prop) (d : ℕ) (L : Library Tid) : Prop :=
  ∀ o, L.objects[d]? = some o → 0 < o.cfg.queueSize ∧
    ∃ env, Reaches (ArtemisNative.next o.cfg) P (.initial o.cfg env) (L.view o)

theorem OwnRun.step {P : State Tid → Label Tid → Prop} (h : L.OwnRun P d) (ha : Keeps P d L a)
    (hn : L.next a = some L') : L'.OwnRun P d := by
  intro o' hd
  rcases next_objects hn hd with ⟨o, ho⟩ | ⟨t, x, env, -, hpos, -, hcfg, hv⟩
  · obtain ⟨o₁, hd₁, hcfg, hstep⟩ := next_advances hn ho
    obtain rfl := Option.some.inj (hd.symm.trans hd₁)
    obtain ⟨hq, env, hr⟩ := h o ho
    rw [hcfg]
    refine ⟨hq, env, ?_⟩
    rcases hstep with hv | ⟨l, hp, hl⟩
    · rw [hv]
      exact hr
    · exact hr.step (ha o l ho hp) hl
  · -- `newContext` has just made it
    refine ⟨?_, _, by rw [hv]; exact .refl _⟩
    rw [hcfg]
    show 0 < x.queueSize.toNat
    omega

theorem OwnRun.of_reaches {P : State Tid → Label Tid → Prop}
    (hr : Reaches next (fun L a => Keeps P d L a ∧ Contained L a) (JNI_OnLoad files) L) :
    L.OwnRun P d :=
  hr.invariant (I := fun L => L.OwnRun P d) (fun _ ho => by cases ho)
    fun _ _ _ h ha hn => h.step ha.1 hn

/-- **Each context has a run of its own**, under whatever discipline the acts that
concern it keep to, as long as no other context touches more than its own memory. -/
theorem context_has_own_run {P : State Tid → Label Tid → Prop}
    (hr : Reaches next (fun L a => Keeps P d L a ∧ Contained L a) (JNI_OnLoad files) L)
    (ho : L.objects[d]? = some o) :
    0 < o.cfg.queueSize ∧
      ∃ env, Reaches (ArtemisNative.next o.cfg) P (.initial o.cfg env) (L.view o) :=
  OwnRun.of_reaches hr o ho

/-! ### Small runs -/

/-- The acts for any of the contexts are contained, as can be computed. -/
def contained [Fintype Tid] (L : Library Tid) : Act Tid → Bool
  | .step t ans =>
    match L.pc t with
    | .inside c =>
      (L.objects[c]?).all fun o =>
        decide (ArtemisNative.Contained o.cfg (L.view o) (.step t ans))
    | _ => true
  | .redeliver c k =>
    (L.objects[c]?).all fun o => decide (ArtemisNative.Contained o.cfg (L.view o) (.redeliver k))
  | _ => true

omit [DecidableEq Tid] in
theorem Contained.of_contained [Fintype Tid] (h : L.contained a = true) : Contained L a := by
  intro c o l ho hp
  cases hp with
  | step t ans ht =>
    simp only [contained, ht, ho, Option.all_some] at h
    exact of_decide_eq_true h
  | redeliver k =>
    simp only [contained, ho, Option.all_some] at h
    exact of_decide_eq_true h
  | call _ _ | complete _ _ | setForceSyscall _ _ | closeDumbHandlers _ _ => trivial

/-- No cleanup, and context `d` is used by the rules. -/
def ordinary [Fintype Tid] (d : ℕ) (L : Library Tid) : Act Tid → Bool
  | .call t c m => c ≠ d || (L.objects[d]?).all fun o => InService (L.view o) (.call t m)
  | .step t ans =>
    L.pc t ≠ .shutdownHook &&
      (L.pc t ≠ .inside d || (L.objects[d]?).all fun o => InService (L.view o) (.step t ans))
  | .redeliver c _ => c ≠ d
  | .unload attached => !attached
  | _ => true

theorem Keeps.of_ordinary [Fintype Tid] (h : L.ordinary d a = true) : Keeps InService d L a := by
  intro o l ho hp
  have hall : ∀ l, (L.objects[d]?).all (fun o => decide (InService (L.view o) l)) = true →
      InService (L.view o) l := by
    intro l hl
    rw [ho] at hl
    exact of_decide_eq_true hl
  cases hp with
  | call t m =>
    have h := Bool.or_eq_true_iff.mp h
    exact hall _ (h.resolve_left fun hne => of_decide_eq_true hne rfl)
  | step t ans ht =>
    have h := (Bool.and_eq_true_iff.mp h).2
    exact hall _ ((Bool.or_eq_true_iff.mp h).resolve_left fun hne => of_decide_eq_true hne ht)
  | complete k res => exact ⟨trivial, trivial, trivial⟩
  | redeliver k => exact absurd rfl (of_decide_eq_true h)
  | setForceSyscall value => exact ⟨trivial, trivial, trivial⟩
  | closeDumbHandlers _ hc =>
    exfalso
    cases a with
    | step t ans =>
      have h := (Bool.and_eq_true_iff.mp h).1
      exact of_decide_eq_true h hc
    | unload attached =>
      obtain rfl : attached = true := hc
      cases h
    | _ => cases hc

/-- Two contexts; an event of the second one comes twice, while a request of the first
one is written, completed and reported. -/
def besides : List (Act Bool) :=
  constructs false 2 ++ constructs false 2 ++
    [.call true 1 (.submit ⟨.pwrite, 7, 0, 512, some 9⟩)] ++ acts true 4 ++
    [.call false 0 (.submit ⟨.pwrite, 5, 0, 512, some 1⟩)] ++ acts false 4 ++
    [.complete 1 0 (-5), .redeliver 1 0, .complete 0 0 512, .call true 0 .poll, .step true {},
      .step true { events := 1 }] ++ acts true 9

theorem context_has_own_run_besides : ∃ (L : Library Bool) (o : Instance Bool),
    L.objects.length = 2 ∧ L.objects[0]? = some o ∧
      o.state.log.filterMap Obs.handed? = [(0, some 1)] ∧
      ∃ env, Reaches (ArtemisNative.next o.cfg) InService (.initial o.cfg env) (L.view o) := by
  obtain ⟨L, ⟨ls, hrun⟩, hlen, o, ho, hlog⟩ := exists_of_exec next
    (fun (L : Library Bool) a => L.ordinary 0 a = true ∧ L.contained a = true)
    (JNI_OnLoad stdio) besides
    (fun L => L.objects.length = 2 ∧
      ∃ o ∈ L.objects[0]?, o.state.log.filterMap Obs.handed? = [(0, some 1)]) (by decide)
  have hr : Reaches next (fun L a => Keeps InService 0 L a ∧ Contained L a) (JNI_OnLoad stdio) L :=
    ⟨ls, hrun.mono fun _ _ h => ⟨.of_ordinary h.1, .of_contained h.2⟩⟩
  exact ⟨L, o, hlen, ho, hlog, (context_has_own_run hr ho).2⟩

/-- **Each context of a process is a completion queue** as long as its own users keep to
the rules, and no other context touches more than its own memory. -/
theorem contexts_are_completion_queues
    (hr : Reaches next (fun L a => Keeps InService d L a ∧ Contained L a) (JNI_OnLoad files) L)
    (ho : L.objects[d]? = some o) :
    ∃ batch, (L.view o).Waits batch ∧
      Queues L.dumbWriteHandler .empty ((L.view o).completions batch) := by
  obtain ⟨hq, env, hown⟩ := OwnRun.of_reaches hr o ho
  obtain ⟨v, hv, hserving, batch, hw, rfl⟩ :=
    (context_simulates o.cfg env.dumbWriteHandler).reaches
      ⟨.initial hq env, State.shows_initial env⟩ hown
  -- the stop file is the one the context was made with
  have hh : L.dumbWriteHandler = env.dumbWriteHandler := hserving.handler
  exact ⟨batch, hw, hh ▸ hv⟩

theorem contexts_are_completion_queues_besides : ∃ (L : Library Bool) (o : Instance Bool),
    L.objects.length = 2 ∧ L.objects[0]? = some o ∧
      o.state.log.filterMap Obs.handed? = [(0, some 1)] ∧
      ∃ batch, (L.view o).Waits batch ∧
        Queues L.dumbWriteHandler .empty ((L.view o).completions batch) := by
  obtain ⟨L, ⟨ls, hrun⟩, hlen, o, ho, hlog⟩ := exists_of_exec next
    (fun (L : Library Bool) a => L.ordinary 0 a = true ∧ L.contained a = true)
    (JNI_OnLoad stdio) besides
    (fun L => L.objects.length = 2 ∧
      ∃ o ∈ L.objects[0]?, o.state.log.filterMap Obs.handed? = [(0, some 1)]) (by decide)
  have hr : Reaches next (fun L a => Keeps InService 0 L a ∧ Contained L a) (JNI_OnLoad stdio) L :=
    ⟨ls, hrun.mono fun _ _ h => ⟨.of_ordinary h.1, .of_contained h.2⟩⟩
  exact ⟨L, o, hlen, ho, hlog, contexts_are_completion_queues hr ho⟩

end Library

end ArtemisNative
