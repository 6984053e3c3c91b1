/-
ArtemisNative/Registry.lean

The counters of the class `LibaioContext`.

`contexts` and `totalMaxIO` are updated before and after the native calls that
they are about.  A thread in between has counted what is not there yet, or has
not counted what is (`LibPc.counted`, `Library.added`); with no thread in between
the exact law is

    contexts   = live contexts + calls of `newContext` that threw
    totalMaxIO = sum of the queue sizes of the live contexts
                   - the queue sizes of the contexts whose `deleteContext` threw

so the counters are right if and only if no native call has thrown
(`accounting_iff`): the constructor does not take its increment back, and
`close` neither puts back what it has subtracted nor resets `closed`.

The decrement of `close` and the flag of the shutdown hook are each followed by
`checkShutdown`.  Whoever comes last sees both: while the counter is zero and the
flag is set, either the hook has been called or some thread is still on its way
to call it (`Watched`).
-/
import ArtemisNative.Library
import ArtemisNative.Lib.Shares
import Mathlib.Algebra.Order.BigOperators.Group.Finset
import Mathlib.Algebra.Order.BigOperators.Group.List
import Mathlib.Tactic.Ring

namespace ArtemisNative

open Transition

variable {Tid : Type} [DecidableEq Tid] {cfg : Config} {s s' : State Tid} {t : Tid}
variable {ans : Answer} {m : Method}

/-! ### What a thread does to the context it closes -/

/-- `close` has subtracted the size of the queue, and `deleteContext` is not
through. -/
def Pc.deletes : Pc → Bool
  | .close .tryAcquire => false
  | .close _ => true
  | _ => false

/-- What a thread that moves does to its context, as far as closing goes. -/
inductive Closing (s s' : State Tid) (t : Tid) : Prop
  | freed (hp : s.pc t = .close .free) (hq : s'.pc t = .idle .returned) (hf : s'.freed = true)
      (hc : s'.closed = s.closed)
  | threw (e : Failure) (hp : (s.pc t).deletes = true) (hfree : s.pc t ≠ .close .free)
      (hq : s'.pc t = .idle (.threw e)) (hf : s'.freed = s.freed) (hc : s'.closed = s.closed)
  | drained (hp : s.pc t = .close .tryAcquire) (hq : s'.pc t = .close .getIOCB)
      (hf : s'.freed = s.freed) (hc : s'.closed = s.closed)
  | deletes (hp : (s.pc t).deletes = true) (hfree : s.pc t ≠ .close .free)
      (hq : (s'.pc t).deletes = true) (hf : s'.freed = s.freed) (hc : s'.closed = s.closed)
  | begins (hp : (s.pc t).closes = false) (hq : s'.pc t = .close .tryAcquire)
      (hf : s'.freed = s.freed) (hc : s'.closed = true)
  | quiet (hp : (s.pc t).closes = false) (hq : (s'.pc t).closes = false)
      (hf : s'.freed = s.freed) (hc : s'.closed = s.closed)

theorem Closing.of_step (hn : next cfg s (.step t ans) = some s') : Closing s s' t := by
  cases next_moves hn with
  | submit _ _ q _ hpc hm =>
    cases hm <;> exact .quiet (by rw [hpc]; rfl) (by simp [State.goto, Pc.closes]) rfl rfl
  | blocked _ _ q _ hpc hm =>
    cases hm with
    | readInterrupted f _ => exact .quiet (by rw [hpc]; rfl) (by rw [hpc]; rfl) rfl rfl
    | event f st _ hm =>
      cases hm <;> exact .quiet (by rw [hpc]; rfl) (by simp [State.goto, Pc.closes]) rfl rfl
    | _ => exact .quiet (by rw [hpc]; rfl) (by simp [State.goto, Pc.closes]) rfl rfl
  | poll _ _ q _ hpc hm =>
    cases hm <;> exact .quiet (by rw [hpc]; rfl) (by simp [State.goto, Pc.closes]) rfl rfl
  | close _ _ q _ hpc hm =>
    cases hm with
    | freed => exact .freed hpc (by simp [State.goto]) rfl rfl
    | noSpace _ | undone _ _ =>
      exact .threw _ (by rw [hpc]; rfl) (by simp [hpc]) (by simp [State.goto]; rfl) rfl rfl
    | timedOut _ _ | drained _ _ _ | unlimited _ =>
      exact .drained hpc (by simp [State.goto]) rfl rfl
    | _ =>
      exact .deletes (by rw [hpc]; rfl) (by simp [hpc]) (by simp [State.goto, Pc.deletes]) rfl rfl

theorem Closing.of_call (hn : next cfg s (.call t m) = some s') : Closing s s' t := by
  cases next_moves hn with
  | call _ o _ _ hpc hm =>
    have hp : (s.pc t).closes = false := by
      rw [hpc]
      rfl
    cases hm with
    | close hcl => exact .begins hp (by simp [State.goto]) rfl rfl
    | _ => exact .quiet hp (by simp [State.goto, Pc.closes]) rfl rfl

/-- The kernel closes nothing. -/
theorem next_closing {l : Label Tid} (hn : next cfg s l = some s') (hl : l.tid? = none) :
    s'.closing = s.closing := by
  cases next_moves hn with
  | complete k res r hr _ => rfl
  | redeliver k ev _ => rfl
  | setForceSyscall value => rfl
  | closeDumbHandlers => rfl
  | _ => cases hl

/-! ### The law of the counters -/

/-- What a context counts for in `contexts`, and in `totalMaxIO`, where
`deleteContext` has thrown after `close` had subtracted the size. -/
def Instance.count (o : Instance Tid) : ℤ := if o.state.freed then 0 else 1

def Instance.size (o : Instance Tid) : ℤ := if o.state.freed then 0 else o.cfg.queueSize

def Instance.io (o : Instance Tid) : ℤ := o.size - o.deleteThrew * o.cfg.queueSize

/-- The thread has incremented `contexts` and there is no context yet, or the
context is freed and `contexts` is not decremented yet. -/
def LibPc.counted : LibPc → ℤ
  | .newContext _ | .decrement => 1
  | _ => 0

omit [DecidableEq Tid] in
/-- A step of a thread outside `close` and `deleteContext` is counted nowhere. -/
theorem after_of_not_closes (c : ℕ) {p q : Pc} (hp : p.closes = false) :
    Library.after c p q = .outside ∨ Library.after c p q = .inside c := by
  cases p with
  | close p => cases hp
  | _ => cases q <;> simp [Library.after]

omit [DecidableEq Tid] in
/-- A step inside `deleteContext`, and one that throws. -/
theorem after_of_deletes (c : ℕ) {p q : Pc} (hp : p.deletes = true) (hfree : p ≠ .close .free)
    (hq : q.deletes = true) : Library.after c p q = .inside c ∧ p.deleteThrew q = false := by
  cases p with
  | close p => cases p <;> cases q <;> simp_all [Library.after, Pc.deletes, Pc.deleteThrew]
  | _ => cases hp

omit [DecidableEq Tid] in
theorem after_of_threw (c : ℕ) {p : Pc} (e : Failure) (hp : p.deletes = true)
    (hfree : p ≠ .close .free) : Library.after c p (.idle (.threw e)) = .outside ∧
      p.deleteThrew (.idle (.threw e)) = true := by
  cases p with
  | close p => cases p <;> simp_all [Library.after, Pc.deletes, Pc.deleteThrew]
  | _ => cases hp

/-- What a thread that is `inside` a context owes to `totalMaxIO`. -/
def LibPc.owes (queueSize : ℕ) (q : Pc) : LibPc → ℤ
  | .inside _ => if q.deletes then -(queueSize : ℤ) else 0
  | _ => 0

omit [DecidableEq Tid] in
theorem Instance.io_moved (o : Instance Tid) (t : Tid) (s : State Tid) :
    (o.moved t s).io = (if s.freed then 0 else (o.cfg.queueSize : ℤ)) -
      (o.deleteThrew + if (o.state.pc t).deleteThrew (s.pc t) then 1 else 0) *
        o.cfg.queueSize := by
  unfold Instance.io Instance.size Instance.moved
  push_cast
  rfl

omit [DecidableEq Tid] in
theorem Pc.deleteThrew_of_not_closes {p q : Pc} (hp : p.closes = false) :
    p.deleteThrew q = false := by
  cases p with
  | close p => cases hp
  | _ => rfl

omit [DecidableEq Tid] in
theorem Pc.deletes_of_not_closes {p : Pc} (hp : p.closes = false) : p.deletes = false := by
  cases p with
  | close p => cases hp
  | _ => rfl

omit [DecidableEq Tid] in
/-- Closing settles in `contexts` and `totalMaxIO` what the thread owes. -/
theorem Closing.settles {o : Instance Tid} (c : ℕ) (hcl : Closing o.state s t)
    (hfresh : o.state.pc t = .close .free → o.state.freed = false) :
    (o.moved t s).count + (Library.after c (o.state.pc t) (s.pc t)).counted = o.count ∧
    (o.moved t s).io + (Library.after c (o.state.pc t) (s.pc t)).owes o.cfg.queueSize (s.pc t)
      = o.io + (LibPc.inside c).owes o.cfg.queueSize (o.state.pc t) := by
  have hcount : (o.moved t s).count = if s.freed then 0 else 1 := rfl
  have hquiet : (o.state.pc t).closes = false → (s.pc t).deletes = false →
      s.freed = o.state.freed →
      (o.moved t s).count + (Library.after c (o.state.pc t) (s.pc t)).counted = o.count ∧
      (o.moved t s).io + (Library.after c (o.state.pc t) (s.pc t)).owes o.cfg.queueSize (s.pc t)
        = o.io + (LibPc.inside c).owes o.cfg.queueSize (o.state.pc t) := by
    intro hp hq hf
    rw [hcount, Instance.io_moved, Instance.io, Instance.size, Instance.count, hf,
      Pc.deleteThrew_of_not_closes hp]
    rcases after_of_not_closes c hp with h | h <;> rw [h] <;>
    simp [LibPc.counted, LibPc.owes, Pc.deletes_of_not_closes hp, hq]
  cases hcl with
  | freed hp hq hf _ =>
    rw [hcount, Instance.io_moved, Instance.io, Instance.size, Instance.count]
    simp [hp, hq, hf, hfresh hp, Library.after, LibPc.counted, LibPc.owes, Pc.deletes,
      Pc.deleteThrew]
    ring
  | threw e hp hfree hq hf _ =>
    obtain ⟨hafter, hthrew⟩ := after_of_threw c e hp hfree
    rw [hcount, Instance.io_moved, Instance.io, Instance.size, Instance.count, hq, hafter,
      hthrew, hf]
    simp only [LibPc.counted, LibPc.owes, hp, if_true]
    constructor
    · omega
    · ring
  | drained hp hq hf _ =>
    rw [hcount, Instance.io_moved, Instance.io, Instance.size, Instance.count]
    simp [hp, hq, hf, Library.after, LibPc.counted, LibPc.owes, Pc.deletes, Pc.deleteThrew]
  | deletes hp hfree hq hf _ =>
    obtain ⟨hafter, hthrew⟩ := after_of_deletes c hp hfree hq
    rw [hcount, Instance.io_moved, Instance.io, Instance.size, Instance.count, hafter, hthrew, hf]
    simp [LibPc.counted, LibPc.owes, hp, hq]
  | begins hp hq hf _ =>
    refine hquiet hp ?_ hf
    rw [hq]
    rfl
  | quiet hp hq hf _ => exact hquiet hp (Pc.deletes_of_not_closes hq) hf

namespace Library

variable {L L' : Library Tid} {a : Act Tid} {t u : Tid} {c d : ℕ} {o o' : Instance Tid}
variable {s : State Tid}

/-- The size of a context that the thread has not added to `totalMaxIO` yet, or
has subtracted before the context is freed. -/
def added (L : Library Tid) (t : Tid) : ℤ :=
  match L.pc t with
  | .addTotal c => (L.objects[c]?).elim 0 fun o => -o.cfg.queueSize
  | .inside c =>
    (L.objects[c]?).elim 0 fun o => (LibPc.inside c).owes o.cfg.queueSize (o.state.pc t)
  | _ => 0

variable [Fintype Tid]

structure Accounts (L : Library Tid) : Prop where
  contexts : L.contexts =
    (L.objects.map Instance.count).sum + L.newThrew + ∑ t, (L.pc t).counted
  totalMaxIO : L.totalMaxIO = (L.objects.map Instance.io).sum + ∑ t, L.added t

omit [Fintype Tid] in
/-- The other threads owe what they owed. -/
theorem Placed.added_of_ne (h : L.Placed) (hn : L.next a = some L') (hu : a.tid? ≠ some u) :
    L'.added u = L.added u := by
  have hkeep : ∀ c : ℕ, (∃ o, L.objects[c]? = some o) → ∃ o o' : Instance Tid,
      L.objects[c]? = some o ∧ L'.objects[c]? = some o' ∧ o'.cfg = o.cfg ∧ o'.state.pc u = o.state.pc u := by
    rintro c ⟨o, ho⟩
    obtain ⟨o', ho', hcfg, -⟩ := next_advances hn ho
    exact ⟨o, o', ho, ho', hcfg, next_state_pc_of_ne hn hu ho ho'⟩
  unfold added
  rw [next_pc_of_ne hn hu]
  split
  · rename_i c hc
    obtain ⟨o, o', ho, ho', hcfg, -⟩ := hkeep c ((h u).addTotal c hc)
    simp only [ho, ho', Option.elim_some, hcfg]
  · rename_i c hc
    obtain ⟨o, o', ho, ho', hcfg, hpc⟩ := hkeep c ((h u).inside c hc)
    simp only [ho, ho', Option.elim_some, hcfg, hpc]
  · rfl

/-- A step of thread `t` keeps the law if it does so for what `t` has a part in. -/
theorem Accounts.move (h : L.Accounts) (hplaced : L.Placed) (hn : L.next a = some L')
    (hu : ∀ u, u ≠ t → a.tid? ≠ some u)
    (hc : L'.contexts - (L'.objects.map Instance.count).sum - L'.newThrew - (L'.pc t).counted
      = L.contexts - (L.objects.map Instance.count).sum - L.newThrew - (L.pc t).counted)
    (hio : L'.totalMaxIO - (L'.objects.map Instance.io).sum - L'.added t
      = L.totalMaxIO - (L.objects.map Instance.io).sum - L.added t) : L'.Accounts := by
  have hcounted : ∑ u, (L'.pc u).counted
      = ∑ u, (L.pc u).counted - (L.pc t).counted + (L'.pc t).counted :=
    sum_shares t fun u hne => by rw [next_pc_of_ne hn (hu u hne)]
  have hadded := sum_shares t fun u hne => hplaced.added_of_ne hn (hu u hne)
  have h₁ := h.contexts
  have h₂ := h.totalMaxIO
  constructor
  · omega
  · omega

/-- An act of no thread keeps the law if it changes none of the counters. -/
theorem Accounts.frame (h : L.Accounts) (hplaced : L.Placed) (hn : L.next a = some L')
    (hu : a.tid? = none) (hc : L'.contexts = L.contexts) (hm : L'.totalMaxIO = L.totalMaxIO)
    (hnew : L'.newThrew = L.newThrew)
    (hcount : (L'.objects.map Instance.count).sum = (L.objects.map Instance.count).sum)
    (hio : (L'.objects.map Instance.io).sum = (L.objects.map Instance.io).sum) :
    L'.Accounts := by
  have hne : ∀ u, a.tid? ≠ some u := fun u h => by rw [hu] at h; cases h
  constructor
  · rw [hc, hcount, hnew, h.contexts]
    congr 1
    exact Finset.sum_congr rfl fun u _ => by rw [next_pc_of_ne hn (hne u)]
  · rw [hm, hio, h.totalMaxIO]
    congr 1
    exact Finset.sum_congr rfl fun u _ => (hplaced.added_of_ne hn (hne u)).symm

omit [Fintype Tid] [DecidableEq Tid] in
/-- What the thread owes before it moves inside context `c`. -/
theorem added_inside (ho : L.objects[c]? = some o)
    (hpos : L.pc t = .inside c ∨ L.pc t = .outside ∧ (o.state.pc t).closes = false) :
    L.added t = (LibPc.inside c).owes o.cfg.queueSize (o.state.pc t) := by
  rcases hpos with hin | ⟨hout, hp⟩
  · simp only [added, hin, ho, Option.elim_some]
  · simp [added, hout, LibPc.owes, Pc.deletes_of_not_closes hp]

omit [Fintype Tid] in
/-- What it owes afterwards. -/
theorem added_moved (ho : L.objects[c]? = some o) :
    (L.moved t c o s).added t =
      (after c (o.state.pc t) (s.pc t)).owes o.cfg.queueSize (s.pc t) := by
  have hself : (L.moved t c o s).objects[c]? = some (o.moved t s) :=
    List.getElem?_set_self (List.getElem?_eq_some_iff.mp ho).1
  have hpc : (L.moved t c o s).pc t = after c (o.state.pc t) (s.pc t) :=
    Function.update_self ..
  unfold added
  rw [hpc]
  rcases hq : after c (o.state.pc t) (s.pc t) with - | x | x | d | d | d | - | - | - | - | -
  case addTotal =>
    unfold after at hq
    split at hq <;> cases hq
  case inside =>
    obtain rfl := after_inside hq
    simp only [hself, Option.elim_some]
    rfl
  all_goals rfl

omit [Fintype Tid] [DecidableEq Tid] in
theorem closing_of_view (h : Closing (L.view o) s t) : Closing o.state s t := by
  cases h with
  | freed hp hq hf hc => exact .freed hp hq hf hc
  | threw e hp hfree hq hf hc => exact .threw e hp hfree hq hf hc
  | drained hp hq hf hc => exact .drained hp hq hf hc
  | deletes hp hfree hq hf hc => exact .deletes hp hfree hq hf hc
  | begins hp hq hf hc => exact .begins hp hq hf hc
  | quiet hp hq hf hc => exact .quiet hp hq hf hc

omit [Fintype Tid] in
theorem Started.soleCloser (h : L.Started) (ho : L.objects[c]? = some o) :
    SoleCloser (L.view o) := by
  obtain ⟨-, env, hr⟩ := h c o ho
  exact hr.invariant (.initial env) fun s l s' hs _ hn => hs.step hn

/-- A step of a thread inside a context keeps the law. -/
theorem Accounts.moved (h : L.Accounts) (hplaced : L.Placed) (hstarted : L.Started)
    (hn : L.next a = some (L.moved t c o s)) (hu : ∀ u, u ≠ t → a.tid? ≠ some u)
    (ho : L.objects[c]? = some o) (hcl : Closing (L.view o) s t)
    (hpos : L.pc t = .inside c ∨ L.pc t = .outside ∧ (o.state.pc t).closes = false) :
    (L.moved t c o s).Accounts := by
  have hcounted : (L.pc t).counted = 0 := by
    rcases hpos with hin | ⟨hout, -⟩
    · rw [hin]
      rfl
    · rw [hout]
      rfl
  have hfresh : o.state.pc t = .close .free → o.state.freed = false := fun hp =>
    (hstarted.soleCloser ho).ahead t .free hp
  obtain ⟨hc, hio⟩ := (closing_of_view hcl).settles c hfresh
  have hpc : (L.moved t c o s).pc t = after c (o.state.pc t) (s.pc t) :=
    Function.update_self ..
  refine h.move hplaced hn hu ?_ ?_
  · have hsum := sum_map_set Instance.count (o.moved t s) ho
    show L.contexts - ((L.objects.set c (o.moved t s)).map Instance.count).sum - L.newThrew - _ = _
    rw [hpc, hcounted, hsum]
    omega
  · have hsum := sum_map_set Instance.io (o.moved t s) ho
    show L.totalMaxIO - ((L.objects.set c (o.moved t s)).map Instance.io).sum - _ = _
    rw [added_moved ho, added_inside ho hpos, hsum]
    omega

omit [Fintype Tid] in
/-- The kernel frees no context. -/
theorem sums_put {l : Label Tid} (ho : L.objects[c]? = some o)
    (hs : ArtemisNative.next o.cfg (L.view o) l = some s) (hl : l.tid? = none) :
    ((L.put c { o with state := s }).objects.map Instance.count).sum =
        (L.objects.map Instance.count).sum ∧
      ((L.put c { o with state := s }).objects.map Instance.io).sum =
        (L.objects.map Instance.io).sum := by
  have hf : s.freed = o.state.freed := congrArg (·.2.2.2) (next_closing hs hl)
  have hc := sum_map_set Instance.count { o with state := s } ho
  have hio := sum_map_set Instance.io { o with state := s } ho
  constructor
  · show ((L.objects.set c { o with state := s }).map Instance.count).sum = _
    rw [hc]
    simp [Instance.count, hf]
  · show ((L.objects.set c { o with state := s }).map Instance.io).sum = _
    rw [hio]
    simp [Instance.io, Instance.size, hf]

theorem Accounts.step (h : L.Accounts) (hplaced : L.Placed) (hstarted : L.Started)
    (hn : L.next a = some L') : L'.Accounts := by
  have hmine : ∀ t u : Tid, u ≠ t → some t ≠ some u := fun t u hne he =>
    hne (Option.some.inj he).symm
  cases next_moves hn with
  | construct t _ ht | shutdown t ht | setFlag t _ ht =>
    refine h.move (t := t) hplaced hn (hmine t) ?_ ?_ <;>
    simp [goto, added, ht, LibPc.counted]
  | newThrew t x ht =>
    refine h.move (t := t) hplaced hn (hmine t) ?_ ?_
    · simp [goto, ht, LibPc.counted]
      omega
    · simp [goto, added, ht]
  | created t x env ht hpos =>
    refine h.move (t := t) hplaced hn (hmine t) ?_ ?_
    · simp [goto, create, ht, LibPc.counted, Instance.count, State.initial]
      omega
    · simp [goto, create, added, ht, Instance.io, Instance.size, State.initial]
      omega
  | called t c m o s ht ho _ hs =>
    have hidle : (o.state.pc t).closes = false := by
      cases ArtemisNative.next_moves hs with
      | call _ out _ _ hpc _ =>
        rw [show o.state.pc t = .idle out from hpc]
        rfl
    exact h.moved hplaced hstarted hn (hmine t) ho (.of_call hs) (.inr ⟨ht, hidle⟩)
  | increment t _ x ht =>
    refine h.move (t := t) hplaced hn (hmine t) ?_ ?_
    · simp [goto, ht, LibPc.counted]
      omega
    · simp [goto, added, ht]
  | addTotal t _ c o ht ho =>
    have hsame : ∀ f : Instance Tid → ℤ, f { o with constructed := true } = f o →
        ((L.objects.set c { o with constructed := true }).map f).sum = (L.objects.map f).sum := by
      intro f hf
      rw [sum_map_set f _ ho, hf]
      omega
    refine h.move (t := t) hplaced hn (hmine t) ?_ ?_
    · simp only [goto, hsame Instance.count rfl, Function.update_self, ht]
      rfl
    · simp only [goto, hsame Instance.io rfl, added, Function.update_self, ht, ho,
        Option.elim_some]
      omega
  | inside t ans c o s ht ho hs =>
    exact h.moved hplaced hstarted hn (hmine t) ho (.of_step hs) (.inl ht)
  | subTotal t _ c o ht ho =>
    have hq : o.state.pc t = .close .getIOCB := by
      obtain ⟨o₁, ho₁, hq⟩ := (hplaced t).subTotal c ht
      obtain rfl := Option.some.inj (ho.symm.trans ho₁)
      exact hq
    refine h.move (t := t) hplaced hn (hmine t) ?_ ?_
    · simp [goto, ht, LibPc.counted]
    · simp [goto, added, ht, ho, hq, LibPc.owes, Pc.deletes]
      omega
  | decrement t _ ht =>
    refine h.move (t := t) hplaced hn (hmine t) ?_ ?_
    · simp [goto, ht, LibPc.counted]
      omega
    · simp [goto, added, ht]
  | readContexts t _ ht =>
    refine h.move (t := t) hplaced hn (hmine t) ?_ ?_ <;>
    · by_cases hz : L.contexts = 0 <;> simp [goto, added, ht, hz, LibPc.counted]
  | readFlag t _ ht =>
    refine h.move (t := t) hplaced hn (hmine t) ?_ ?_ <;>
    · cases hf : L.shuttingDown <;> simp [goto, added, ht, hf, LibPc.counted]
  | shutdownHook t _ ht =>
    refine h.move (t := t) hplaced hn (hmine t) ?_ ?_ <;>
    · rw [closeDumbHandlers_frame]
      simp [goto, added, ht, LibPc.counted]
  | complete c k res o s ho hs =>
    obtain ⟨hc, hio⟩ := sums_put ho hs rfl
    exact h.frame hplaced hn rfl rfl rfl rfl hc hio
  | redeliver c k o s ho hs =>
    obtain ⟨hc, hio⟩ := sums_put ho hs rfl
    exact h.frame hplaced hn rfl rfl rfl rfl hc hio
  | unload =>
    refine h.frame hplaced hn rfl ?_ ?_ ?_ ?_ ?_ <;> rw [closeDumbHandlers_frame]
  | _ => exact h.frame hplaced hn rfl rfl rfl rfl rfl rfl

omit [DecidableEq Tid] in
theorem Accounts.onLoad (files : Slots OpenFile) :
    (JNI_OnLoad files : Library Tid).Accounts where
  contexts := by simp [JNI_OnLoad, LibPc.counted]
  totalMaxIO := by simp [JNI_OnLoad, added]

end Library

/-! ### What a context remembers -/

/-- The histories of a context agree with its state, and where `closed` is set
somebody is still closing or has been through. -/
structure Instance.Booked (o : Instance Tid) : Prop where
  frees : o.frees = if o.state.freed then 1 else 0
  threw : 0 < o.deleteThrew → o.state.closed = true
  closed : o.state.closed = true →
    o.state.freed = true ∨ 0 < o.deleteThrew ∨ ∃ t, (o.state.pc t).closes = true

omit [DecidableEq Tid] in
/-- A step of the context that has nothing to do with closing. -/
theorem Instance.Booked.frame {o o' : Instance Tid} (h : o.Booked) (hfrees : o'.frees = o.frees)
    (hthrew : o'.deleteThrew = o.deleteThrew) (hf : o'.state.freed = o.state.freed)
    (hc : o'.state.closed = o.state.closed)
    (hpc : ∀ t, (o.state.pc t).closes = true → o'.state.pc t = o.state.pc t) : o'.Booked where
  frees := by rw [hfrees, hf, h.frees]
  threw := by rw [hthrew, hc]; exact h.threw
  closed := by
    rw [hc, hf, hthrew]
    intro hcl
    rcases h.closed hcl with hfree | hthrew | ⟨t, ht⟩
    · exact .inl hfree
    · exact .inr (.inl hthrew)
    · exact .inr (.inr ⟨t, by rwa [hpc t ht]⟩)

omit [DecidableEq Tid] in
theorem Instance.Booked.moved {o : Instance Tid} (h : o.Booked) (hcl : Closing o.state s t)
    (hsole : SoleCloser o.state) (hpc : ∀ u, u ≠ t → s.pc u = o.state.pc u) :
    (o.moved t s).Booked := by
  have hclosed : (o.state.pc t).closes = true → o.state.closed = true := hsole.closed t
  have hdel : (o.state.pc t).deletes = true → (o.state.pc t).closes = true := by
    intro hd
    rw [← Bool.not_eq_false]
    intro hc
    rw [Pc.deletes_of_not_closes hc] at hd
    cases hd
  cases hcl with
  | freed hp hq hf hc =>
    have hfresh : o.state.freed = false := hsole.ahead t .free hp
    have hfrees := h.frees
    rw [hfresh] at hfrees
    refine ⟨?_, fun _ => ?_, fun _ => .inl hf⟩
    · simp [Instance.moved, hp, hf, hfrees]
    · exact hc.trans (hclosed (by rw [hp]; rfl))
  | threw e hp hfree hq hf hc =>
    obtain ⟨-, hthrew⟩ := after_of_threw 0 e hp hfree
    rw [← hq] at hthrew
    refine ⟨?_, fun _ => hc.trans (hclosed (hdel hp)), fun _ => .inr (.inl ?_)⟩
    · simp [Instance.moved, hfree, hf, h.frees]
    · simp [Instance.moved, hthrew]
  | drained hp hq hf hc =>
    refine ⟨?_, fun _ => hc.trans (hclosed (by rw [hp]; rfl)), fun _ => .inr (.inr ⟨t, ?_⟩)⟩
    · simp [Instance.moved, hp, hf, h.frees]
    · rw [show (o.moved t s).state.pc t = _ from hq]
      rfl
  | deletes hp hfree hq hf hc =>
    refine ⟨?_, fun _ => hc.trans (hclosed (hdel hp)), fun _ => .inr (.inr ⟨t, ?_⟩)⟩
    · simp [Instance.moved, hfree, hf, h.frees]
    · show (s.pc t).closes = true
      rw [← Bool.not_eq_false]
      intro hne
      rw [Pc.deletes_of_not_closes hne] at hq
      cases hq
  | begins hp hq hf hc =>
    have hfree : o.state.pc t ≠ .close .free := by
      intro he
      rw [he] at hp
      cases hp
    refine ⟨?_, fun _ => hc, fun _ => .inr (.inr ⟨t, ?_⟩)⟩
    · simp [Instance.moved, hfree, hf, h.frees]
    · rw [show (o.moved t s).state.pc t = _ from hq]
      rfl
  | quiet hp hq hf hc =>
    have hfree : o.state.pc t ≠ .close .free := by
      intro he
      rw [he] at hp
      cases hp
    refine h.frame ?_ ?_ hf hc fun u hu => hpc u ?_
    · simp [Instance.moved, hfree]
    · simp [Instance.moved, Pc.deleteThrew_of_not_closes hp]
    · rintro rfl
      rw [hp] at hu
      cases hu

namespace Library

variable {L L' : Library Tid} {a : Act Tid} {t u : Tid} {c d : ℕ} {o o' : Instance Tid}

def Booked (L : Library Tid) : Prop :=
  ∀ (c : ℕ) (o : Instance Tid), L.objects[c]? = some o → o.Booked

omit [DecidableEq Tid] in
theorem Booked.put {o₁ : Instance Tid} (h : L.Booked) (ho₁ : o₁.Booked) : (L.put c o₁).Booked := by
  intro d o' hd
  have hd : (L.objects.set c o₁)[d]? = some o' := hd
  by_cases hcd : c = d
  · subst hcd
    have hlt := (List.getElem?_eq_some_iff.mp hd).1
    rw [List.length_set] at hlt
    rw [List.getElem?_set_self hlt] at hd
    obtain rfl := Option.some.inj hd
    exact ho₁
  · rw [List.getElem?_set_ne hcd] at hd
    exact h d o' hd

theorem Booked.step (h : L.Booked) (hstarted : L.Started) (hn : L.next a = some L') :
    L'.Booked := by
  -- a step of the kernel
  have hkernel : ∀ {c : ℕ} {o : Instance Tid} {s : State Tid} {l : Label Tid},
      L.objects[c]? = some o → ArtemisNative.next o.cfg (L.view o) l = some s →
      l.tid? = none → (L.put c { o with state := s }).Booked := by
    intro c o s l ho hs hl
    have hcl := next_closing hs hl
    refine h.put ((h c o ho).frame rfl rfl ?_ ?_ fun t _ => ?_)
    · exact congrArg (·.2.2.2) hcl
    · exact congrArg (·.1) hcl
    · have hpc := ArtemisNative.next_pc_of_ne hs (u := t) (by rw [hl]; nofun)
      exact hpc
  have hmoved : ∀ {t : Tid} {c : ℕ} {o : Instance Tid} {s : State Tid} {l : Label Tid},
      L.objects[c]? = some o → ArtemisNative.next o.cfg (L.view o) l = some s →
      l.tid? = some t → Closing (L.view o) s t → (L.put c (o.moved t s)).Booked := by
    intro t c o s l ho hs hl hcl
    have hsole := hstarted.soleCloser ho
    refine h.put ((h c o ho).moved (closing_of_view hcl) ?_ fun u hu => ?_)
    · exact ⟨hsole.unique, hsole.closed, hsole.fresh, hsole.ahead⟩
    · have hpc := ArtemisNative.next_pc_of_ne hs
        fun he => hu (Option.some.inj (he.symm.trans hl))
      exact hpc
  cases next_moves hn with
  | created t x env ht hpos =>
    intro d o hd
    have hd : (L.objects ++ [_])[d]? = some o := hd
    rcases List.mem_append.mp (List.mem_of_getElem? hd) with hmem | hmem
    · obtain ⟨c, hc⟩ := List.getElem?_of_mem hmem
      exact h c o hc
    · obtain rfl := List.mem_singleton.mp hmem
      exact ⟨rfl, nofun, nofun⟩
  | called t c m o s _ ho _ hs => exact hmoved ho hs rfl (.of_call hs)
  | addTotal t ans c o _ ho =>
    have ho' : { o with constructed := true }.Booked :=
      (h c o ho).frame rfl rfl rfl rfl fun _ _ => rfl
    exact h.put ho'
  | inside t ans c o s _ ho hs => exact hmoved ho hs rfl (.of_step hs)
  | complete c k res o s ho hs => exact hkernel ho hs rfl
  | redeliver c k o s ho hs => exact hkernel ho hs rfl
  | shutdownHook t ans _ =>
    intro d o hd
    exact h d o (closeDumbHandlers_objects ▸ hd)
  | unload =>
    intro d o hd
    exact h d o (closeDumbHandlers_objects ▸ hd)
  | _ => exact h

/-! ### With no call in progress -/

/-- No constructor, `close` or `checkShutdown` is in progress; threads may be
submitting and polling. -/
def Quiet (L : Library Tid) : Prop :=
  ∀ t, L.pc t = .outside ∨
    ∃ c o, L.pc t = .inside c ∧ L.objects[c]? = some o ∧ (o.state.pc t).closes = false

omit [DecidableEq Tid] in
theorem Quiet.counted (h : L.Quiet) (t : Tid) : (L.pc t).counted = 0 := by
  rcases h t with ht | ⟨c, o, ht, -, -⟩ <;> rw [ht] <;> rfl

omit [DecidableEq Tid] in
theorem Quiet.added (h : L.Quiet) (t : Tid) : L.added t = 0 := by
  rcases h t with ht | ⟨c, o, ht, ho, hc⟩
  · simp [Library.added, ht]
  · simp [Library.added, ht, ho, LibPc.owes, Pc.deletes_of_not_closes hc]

omit [DecidableEq Tid] in
theorem Quiet.closes (h : L.Quiet) (hplaced : L.Placed) (ho : L.objects[c]? = some o) (t : Tid) :
    (o.state.pc t).closes = false := by
  rcases (hplaced t).idle c o ho with ⟨out, hidle⟩ | hin | hsub
  · rw [hidle]
    rfl
  · rcases h t with ht | ⟨c', o', ht, ho', hc⟩
    · rw [ht] at hin
      cases hin
    · obtain rfl := LibPc.inside.inj (ht.symm.trans hin)
      obtain rfl := Option.some.inj (ho.symm.trans ho')
      exact hc
  · rcases h t with ht | ⟨c', o', ht, -, -⟩ <;> rw [ht] at hsub <;> cases hsub

/-- The contexts created and not freed. -/
def live (L : Library Tid) : List (Instance Tid) := L.objects.filter fun o => !o.state.freed

omit [DecidableEq Tid] in
theorem sum_live (xs : List (Instance Tid)) (f : Instance Tid → ℤ) :
    ((xs.filter fun o => !o.state.freed).map f).sum =
      (xs.map fun o => if o.state.freed then 0 else f o).sum := by
  induction xs with
  | nil => rfl
  | cons x xs ih =>
    cases hx : x.state.freed
    · simp [hx, ih]
    · simp [hx, ih]

/-- The counters say what there is, nothing is freed twice, and a context whose
`close` has failed can be closed again. -/
structure CountersRight (L : Library Tid) : Prop where
  contexts : L.contexts = L.live.length
  totalMaxIO : L.totalMaxIO = (L.live.map fun o => (o.cfg.queueSize : ℤ)).sum
  frees : ∀ o ∈ L.objects, o.frees ≤ 1
  closable : ∀ o ∈ L.objects, 0 < o.deleteThrew → o.state.closed = false

variable [Fintype Tid]

/-- What holds in every state of a loaded library. -/
structure Registered (L : Library Tid) : Prop where
  started : L.Started
  placed : L.Placed
  accounts : L.Accounts
  booked : L.Booked

theorem Registered.step (h : L.Registered) (hn : L.next a = some L') : L'.Registered where
  started := h.started.step hn
  placed := h.placed.step hn
  accounts := h.accounts.step h.placed h.started hn
  booked := h.booked.step h.started hn

theorem Registered.onLoad (files : Slots OpenFile) :
    (JNI_OnLoad files : Library Tid).Registered where
  started := .onLoad files
  placed := .onLoad files
  accounts := .onLoad files
  booked := by
    intro c o ho
    cases ho

theorem Registered.of_reaches {files : Slots OpenFile} {P : Library Tid → Act Tid → Prop}
    (hr : Reaches next P (JNI_OnLoad files) L) : L.Registered :=
  hr.invariant (.onLoad files) fun _ _ _ h _ hn => h.step hn

/-- The exact law of the counters. -/
theorem Registered.contexts_eq (h : L.Registered) (hq : L.Quiet) :
    L.contexts = L.live.length + L.newThrew := by
  have hlive := sum_live L.objects fun _ => 1
  have hlen : ((L.live.map fun _ => (1 : ℤ)).sum) = L.live.length := by simp
  have hcount : (L.objects.map fun o => if o.state.freed then 0 else (1 : ℤ)).sum =
      (L.objects.map Instance.count).sum := rfl
  have hzero : ∑ t, (L.pc t).counted = 0 := Finset.sum_eq_zero fun t _ => hq.counted t
  rw [h.accounts.contexts, hzero, ← hlen, ← hcount, ← hlive]
  show (_ : ℤ) = _
  unfold live
  omega

theorem Registered.totalMaxIO_eq (h : L.Registered) (hq : L.Quiet) :
    L.totalMaxIO = (L.live.map fun o => (o.cfg.queueSize : ℤ)).sum -
      (L.objects.map fun o => (o.deleteThrew * o.cfg.queueSize : ℤ)).sum := by
  have hzero : ∑ t, L.added t = 0 := Finset.sum_eq_zero fun t _ => hq.added t
  have hio : (L.objects.map Instance.io).sum +
      (L.objects.map fun o => (o.deleteThrew * o.cfg.queueSize : ℤ)).sum =
        (L.objects.map Instance.size).sum := by
    rw [← List.sum_map_add]
    congr 2
    funext o
    show o.size - _ + _ = o.size
    omega
  have hsize : (L.live.map fun o => (o.cfg.queueSize : ℤ)).sum =
      (L.objects.map Instance.size).sum := sum_live L.objects _
  rw [h.accounts.totalMaxIO, hzero, hsize, ← hio]
  omega

/-- **With no call in progress the counters are right if and only if neither
`newContext` nor `deleteContext` has ever thrown.** -/
theorem accounting_iff {files : Slots OpenFile}
    (hr : Reaches next (fun _ _ => True) (JNI_OnLoad files) L) (hq : L.Quiet) :
    L.CountersRight ↔ L.newThrew = 0 ∧ ∀ o ∈ L.objects, o.deleteThrew = 0 := by
  have h := Registered.of_reaches hr
  have hbooked : ∀ o ∈ L.objects, o.Booked := by
    intro o ho
    obtain ⟨c, hc⟩ := List.getElem?_of_mem ho
    exact h.booked c o hc
  constructor
  · rintro ⟨hcontexts, -, -, hclosable⟩
    rw [h.contexts_eq hq] at hcontexts
    refine ⟨by omega, fun o ho => ?_⟩
    by_contra hne
    have hpos : 0 < o.deleteThrew := Nat.pos_of_ne_zero hne
    have hclosed := (hbooked o ho).threw hpos
    rw [hclosable o ho hpos] at hclosed
    cases hclosed
  · rintro ⟨hnew, hdel⟩
    refine ⟨?_, ?_, fun o ho => ?_, fun o ho hpos => ?_⟩
    · rw [h.contexts_eq hq, hnew]
      omega
    · have hzero : (L.objects.map fun o => (o.deleteThrew * o.cfg.queueSize : ℤ)).sum = 0 := by
        refine List.sum_eq_zero ?_
        intro x hx
        obtain ⟨o, ho, rfl⟩ := List.mem_map.mp hx
        simp [hdel o ho]
      rw [h.totalMaxIO_eq hq, hzero]
      omega
    · rw [(hbooked o ho).frees]
      split <;> omega
    · rw [hdel o ho] at hpos
      omega

/-! ### The shutdown hook -/

/-- The thread is in `checkShutdown`. -/
def checks : LibPc → Bool
  | .readContexts | .readFlag | .shutdownHook => true
  | _ => false

/-- Once the counter is zero and the flag is set, the hook has been called or
somebody is still checking. -/
def Watched (L : Library Tid) : Prop :=
  L.contexts = 0 → L.shuttingDown = true → 0 < L.hooks ∨ ∃ t, checks (L.pc t) = true

omit [Fintype Tid] [DecidableEq Tid] in
/-- A thread that begins to check keeps watch for all. -/
theorem Watched.of_checks (h : checks (L'.pc t) = true) : L'.Watched := fun _ _ => .inr ⟨t, h⟩

omit [Fintype Tid] in
/-- A step that changes neither the counter nor the flag, of a thread that was
not checking. -/
theorem Watched.frame (h : L.Watched) (hn : L.next a = some L')
    (hu : ∀ u, a.tid? = some u → checks (L.pc u) = false) (hc : L'.contexts = L.contexts)
    (hf : L'.shuttingDown = L.shuttingDown) (hh : L'.hooks = L.hooks) : L'.Watched := by
  intro hzero hflag
  rw [hc] at hzero
  rw [hf] at hflag
  rw [hh]
  refine (h hzero hflag).imp_right ?_
  rintro ⟨u, hcheck⟩
  refine ⟨u, ?_⟩
  rw [next_pc_of_ne hn fun he => ?_]
  · exact hcheck
  · rw [hu u he] at hcheck
    cases hcheck

omit [DecidableEq Tid] in
theorem Accounts.contexts_nonneg (h : L.Accounts) : 0 ≤ L.contexts := by
  have hcount : 0 ≤ (L.objects.map Instance.count).sum := by
    refine List.sum_nonneg fun x hx => ?_
    obtain ⟨o, -, rfl⟩ := List.mem_map.mp hx
    unfold Instance.count
    split <;> omega
  have hcounted : 0 ≤ ∑ t, (L.pc t).counted := by
    refine Finset.sum_nonneg fun t _ => ?_
    unfold LibPc.counted
    split <;> omega
  rw [h.contexts]
  omega

theorem Watched.step (h : L.Watched) (haccounts : L.Accounts) (hn : L.next a = some L') :
    L'.Watched := by
  have hpos := haccounts.contexts_nonneg
  have hidle : ∀ {t u : Tid} {p : LibPc}, L.pc t = p → checks p = false → some t = some u →
      checks (L.pc u) = false := by
    rintro t u p ht hp ⟨⟩
    rw [ht]
    exact hp
  cases next_moves hn with
  | increment t ans x ht =>
    intro hzero
    have hzero : L.contexts + 1 = 0 := hzero
    omega
  | decrement t ans ht | setFlag t ans ht => exact .of_checks (t := t) (by simp [goto, checks])
  | readContexts t ans ht =>
    intro hzero hflag
    have hzero : L.contexts = 0 := hzero
    exact .inr ⟨t, by simp [goto, hzero, checks]⟩
  | readFlag t ans ht =>
    intro hzero hflag
    have hflag : L.shuttingDown = true := hflag
    exact .inr ⟨t, by simp [goto, hflag, checks]⟩
  | shutdownHook t ans ht => exact fun _ _ => .inl (Nat.succ_pos _)
  | construct t x ht | newThrew t x ht | shutdown t ht | called t c m o s ht _ _ _
  | created t x env ht _ =>
    exact h.frame hn (fun u he => hidle ht rfl he) rfl rfl rfl
  | addTotal t ans c o ht _ | inside t ans c o s ht _ _ | subTotal t ans c o ht _ =>
    exact h.frame hn (fun u he => hidle ht rfl he) rfl rfl rfl
  | unload =>
    refine h.frame hn (by rintro u ⟨⟩) ?_ ?_ ?_ <;> rw [closeDumbHandlers_frame]
  | _ => exact h.frame hn (by rintro u ⟨⟩) rfl rfl rfl

omit [Fintype Tid] [DecidableEq Tid] in
theorem Watched.onLoad (files : Slots OpenFile) : (JNI_OnLoad files : Library Tid).Watched := by
  intro _ hflag
  cases hflag

/-- **Shutdown cleanup is not lost.**  Whatever the threads did in between: if no
constructor and no `close` has thrown, and all contexts are closed when the flag
is set and no call is in progress, then the hook has been called. -/
theorem shutdown_hook_called {files : Slots OpenFile}
    (hr : Reaches next (fun _ _ => True) (JNI_OnLoad files) L) (hnew : L.newThrew = 0)
    (hdel : ∀ o ∈ L.objects, o.deleteThrew = 0) (hq : L.Quiet) (hflag : L.shuttingDown = true)
    (hclosed : ∀ o ∈ L.objects, o.state.closed = true) : 0 < L.hooks := by
  have h := Registered.of_reaches hr
  have hwatched : L.Watched := by
    refine (hr.invariant (I := fun L => L.Registered ∧ L.Watched)
      ⟨.onLoad files, .onLoad files⟩ ?_).2
    rintro L₁ a L₂ ⟨hreg, hw⟩ _ hn
    exact ⟨hreg.step hn, hw.step hreg.accounts hn⟩
  -- every context is freed, since nobody is closing any more
  have hlive : L.live = [] := by
    refine List.filter_eq_nil_iff.mpr fun o ho => ?_
    obtain ⟨c, hc⟩ := List.getElem?_of_mem ho
    rcases (h.booked c o hc).closed (hclosed o ho) with hfree | hthrew | ⟨t, ht⟩
    · simp [hfree]
    · rw [hdel o ho] at hthrew
      omega
    · rw [hq.closes h.placed hc t] at ht
      cases ht
  have hzero : L.contexts = 0 := by
    rw [h.contexts_eq hq, hlive, hnew]
    rfl
  rcases hwatched hzero hflag with hhook | ⟨t, ht⟩
  · exact hhook
  · rcases hq t with hpc | ⟨c, o, hpc, -, -⟩ <;> rw [hpc] at ht <;> cases ht

/-! ### Small runs of the library -/

/-- A construction in which `newContext` throws. -/
def constructFails (t : Bool) (queueSize : ℤ) : List (Act Bool) :=
  [.construct t ⟨queueSize, true, false⟩, .step t {}, .newContext t none]

/-- `close` of context `c`, and one in which `io_submit` rejects the sentinel. -/
def closeSucceeds (t : Bool) (c : ℕ) : List (Act Bool) := .call t c .close :: acts t 15

def closeFails (t : Bool) (c : ℕ) : List (Act Bool) :=
  .call t c .close :: acts t 4 ++ [.step t { ioSubmit := -11 }, .step t {}]

theorem accounting_closed : ∃ L : Library Bool,
    Reaches next (fun _ _ => True) sample L ∧ L.objects.length = 1 ∧ L.CountersRight := by
  obtain ⟨L, hr, hq, hlen, hnew, hdel⟩ := exists_of_exec next (fun _ _ => True) sample
    (constructs false 2 ++ closeSucceeds false 0)
    (fun L => (∀ t, L.pc t = .outside) ∧ L.objects.length = 1 ∧ L.newThrew = 0 ∧
      ∀ o ∈ L.objects, o.deleteThrew = 0) (by decide)
  exact ⟨L, hr, hlen, (accounting_iff hr fun t => .inl (hq t)).mpr ⟨hnew, hdel⟩⟩

/-- After a construction that failed and a `close` that failed, `contexts` cannot
return to zero, `totalMaxIO` does not count the context, and no `close` will
free it. -/
theorem accounting_wrong : ∃ L : Library Bool,
    Reaches next (fun _ _ => True) sample L ∧ (∀ t, L.pc t = .outside) ∧
      L.contexts = 2 ∧ L.live.length = 1 ∧ L.totalMaxIO = 0 ∧
      (∀ o ∈ L.live, o.cfg.queueSize = 2 ∧ o.state.closed = true) ∧ ¬L.CountersRight := by
  obtain ⟨L, hr, hq, hc, hlive, hio, ho⟩ := exists_of_exec next (fun _ _ => True) sample
    (constructFails false 2 ++ constructs false 2 ++ closeFails false 0)
    (fun L => (∀ t, L.pc t = .outside) ∧ L.contexts = 2 ∧ L.live.length = 1 ∧
      L.totalMaxIO = 0 ∧ ∀ o ∈ L.live, o.cfg.queueSize = 2 ∧ o.state.closed = true) (by decide)
  refine ⟨L, hr, hq, hc, hlive, hio, ho, fun h => ?_⟩
  have := h.contexts
  omega

/-- The flag is set while a context is being closed, after the counter has been
read: the closing thread calls the hook. -/
theorem shutdown_hook_called_late : ∃ L : Library Bool,
    Reaches next (fun _ _ => True) sample L ∧ L.objects.length = 1 ∧ 0 < L.hooks := by
  obtain ⟨L, hr, hq, hlen, hnew, hdel, hflag, hclosed⟩ := exists_of_exec next (fun _ _ => True)
    sample (constructs false 2 ++ .call false 0 .close :: acts false 14 ++
      [.shutdown true, .step true {}] ++ acts false 2 ++ acts true 3)
    (fun L => (∀ t, L.pc t = .outside) ∧ L.objects.length = 1 ∧ L.newThrew = 0 ∧
      (∀ o ∈ L.objects, o.deleteThrew = 0) ∧ L.shuttingDown = true ∧
      ∀ o ∈ L.objects, o.state.closed = true) (by decide)
  exact ⟨L, hr, hlen, shutdown_hook_called hr hnew hdel (fun t => .inl (hq t)) hflag hclosed⟩

end Library

end ArtemisNative
