/-
ArtemisNative/Lib/Monitor.lean

Objects whose operations run under one lock.

A call is asked for, waits for the lock, accesses the shared state step by step, gives
the lock back and returns (`Machine`).  With the lock it makes no difference that the
accesses are single steps: there is a system in which each call is one step, somewhere
between the moment it was asked for and its return, and which has the same history of
calls and returns (`Atomic`, `Body.simulates`).  In other words, the object is
linearizable, and it is enough to know what a call does when it runs alone
(`Body.Does`).

What the callers may ask for can depend on the history: `Machine.Allowed`,
`Atomic.Allowed`.
-/
import ArtemisNative.Lib.Simulation
import Mathlib.Logic.Relation
import Mathlib.Logic.Function.Basic

namespace Monitor

open Transition Relation

variable {Tid σ τ ο ℓ ρ : Type*}

/-! ### A call that runs alone -/

/-- What calls do: they return at once, or there is a local state to enter the lock with,
and then one access after the other until there is a result. -/
structure Body (σ ο ℓ ρ : Type*) where
  start : ο → ℓ ⊕ ρ
  step : σ → ℓ → σ × (ℓ ⊕ ρ)

namespace Body

variable {b : Body σ ο ℓ ρ} {op : σ → ο → ρ × σ} {x y z : σ × ℓ} {r r' : ρ} {s s' s'' : σ}
variable {l l' : ℓ}

/-- An access after which the call goes on. -/
def Access (b : Body σ ο ℓ ρ) (x y : σ × ℓ) : Prop := b.step x.1 x.2 = (y.1, .inl y.2)

/-- From here on a call that is not disturbed ends with result `r` and state `s`. -/
def Ends (b : Body σ ο ℓ ρ) (x : σ × ℓ) (r : ρ) (s : σ) : Prop :=
  ∃ y, ReflTransGen b.Access x y ∧ b.step y.1 y.2 = (s, .inr r)

/-- A call that is not disturbed does what `op` does. -/
structure Does (b : Body σ ο ℓ ρ) (op : σ → ο → ρ × σ) : Prop where
  locked : ∀ s o l, b.start o = .inl l → b.Ends (s, l) (op s o).1 (op s o).2
  quick : ∀ s o r, b.start o = .inr r → op s o = (r, s)

theorem Access.unique (h : b.Access x y) (h' : b.Access x z) : y = z := by
  have heq := h.symm.trans h'
  simp only [Prod.mk.injEq, Sum.inl.injEq] at heq
  exact Prod.ext heq.1 heq.2

theorem Ends.last (h : b.step s l = (s', .inr r)) : b.Ends (s, l) r s' :=
  ⟨(s, l), .refl, h⟩

theorem Ends.access (h : b.step s l = (s', .inl l')) (hends : b.Ends (s', l') r s'') :
    b.Ends (s, l) r s'' := by
  obtain ⟨z, hz, hlast⟩ := hends
  have haccess : b.Access (s, l) (s', l') := h
  exact ⟨z, .head haccess hz, hlast⟩

/-- Where a call ends it makes no further access. -/
theorem eq_of_last (hlast : b.step x.1 x.2 = (s, .inr r)) (h : ReflTransGen b.Access x y) :
    y = x := by
  cases h.cases_head with
  | inl heq => exact heq.symm
  | inr hmore =>
    obtain ⟨z, hz, -⟩ := hmore
    rw [Access, hlast] at hz
    cases hz

theorem Ends.unique (h : b.Ends x r s) (h' : b.Ends x r' s') : r = r' ∧ s = s' := by
  obtain ⟨y, hy, hlast⟩ := h
  obtain ⟨z, hz, hlast'⟩ := h'
  have heq : y = z := by
    have hdet : Relator.RightUnique b.Access := fun _ _ _ => Access.unique
    rcases ReflTransGen.total_of_right_unique hdet hy hz with hyz | hzy
    · exact (eq_of_last hlast hyz).symm
    · exact eq_of_last hlast' hzy
  subst heq
  rw [hlast, Prod.mk.injEq, Sum.inr.injEq] at hlast'
  exact ⟨hlast'.2, hlast'.1⟩

/-- Wherever a call is under way, it ends as it would from its start. -/
theorem Ends.rest (h : b.Ends x r s) (hrun : ReflTransGen b.Access x y) : b.Ends y r s := by
  obtain ⟨z, hz, hlast⟩ := h
  have hdet : Relator.RightUnique b.Access := fun _ _ _ => Access.unique
  rcases ReflTransGen.total_of_right_unique hdet hz hrun with hzy | hyz
  · obtain rfl := eq_of_last hlast hzy
    exact ⟨y, .refl, hlast⟩
  · exact ⟨z, hyz, hlast⟩

end Body

/-! ### The object with its lock -/

/-- What the callers see. -/
inductive Event (Tid ο ρ : Type*)
  | call (t : Tid) (o : ο)
  | ret (t : Tid) (r : ρ)
  deriving DecidableEq, Repr

inductive Phase (ο ℓ ρ : Type*)
  | outside
  /-- at the lock -/
  | waits (o : ο)
  | inside (o : ο) (l : ℓ)
  /-- with a result, and still with the lock -/
  | leaves (r : ρ)
  | returns (r : ρ)
  deriving DecidableEq, Repr

structure Machine (Tid σ ο ℓ ρ : Type*) where
  shared : σ
  holder : Option Tid
  phase : Tid → Phase ο ℓ ρ
  history : List (Event Tid ο ρ)

inductive Label (Tid ο : Type*)
  | call (t : Tid) (o : ο)
  | lock (t : Tid)
  | access (t : Tid)
  | unlock (t : Tid)
  | ret (t : Tid)
  deriving DecidableEq, Repr

namespace Machine

def initial (s : σ) : Machine Tid σ ο ℓ ρ where
  shared := s
  holder := none
  phase _ := .outside
  history := []

/-- The calls that the history so far allows. -/
def Allowed (P : List (Event Tid ο ρ) → Tid → ο → Prop) (m : Machine Tid σ ο ℓ ρ) :
    Label Tid ο → Prop
  | .call t o => P m.history t o
  | _ => True

variable [DecidableEq Tid]

def goto (m : Machine Tid σ ο ℓ ρ) (t : Tid) (p : Phase ο ℓ ρ) : Machine Tid σ ο ℓ ρ :=
  { m with phase := Function.update m.phase t p }

def next (b : Body σ ο ℓ ρ) (m : Machine Tid σ ο ℓ ρ) :
    Label Tid ο → Option (Machine Tid σ ο ℓ ρ)
  | .call t o =>
    match m.phase t with
    | .outside =>
      let p := match b.start o with
        | .inl _ => .waits o
        | .inr r => .returns r
      some { m.goto t p with history := m.history ++ [.call t o] }
    | _ => none
  | .lock t =>
    match m.phase t with
    | .waits o =>
      match b.start o with
      | .inl l =>
        if m.holder = none then some { m.goto t (.inside o l) with holder := some t } else none
      | .inr _ => none
    | _ => none
  | .access t =>
    match m.phase t with
    | .inside o l =>
      match b.step m.shared l with
      | (s, .inl l') => some { m.goto t (.inside o l') with shared := s }
      | (s, .inr r) => some { m.goto t (.leaves r) with shared := s }
    | _ => none
  | .unlock t =>
    match m.phase t with
    | .leaves r => some { m.goto t (.returns r) with holder := none }
    | _ => none
  | .ret t =>
    match m.phase t with
    | .returns r => some { m.goto t .outside with history := m.history ++ [.ret t r] }
    | _ => none

end Machine

/-! ### The object whose calls are single steps -/

structure Atomic (Tid σ ο ρ : Type*) where
  shared : σ
  phase : Tid → Phase ο Empty ρ
  history : List (Event Tid ο ρ)

inductive AtomicLabel (Tid ο : Type*)
  | call (t : Tid) (o : ο)
  /-- the call takes effect -/
  | run (t : Tid)
  | ret (t : Tid)
  deriving DecidableEq, Repr

namespace Atomic

def initial (s : σ) : Atomic Tid σ ο ρ where
  shared := s
  phase _ := .outside
  history := []

def Allowed (P : List (Event Tid ο ρ) → Tid → ο → Prop) (a : Atomic Tid σ ο ρ) :
    AtomicLabel Tid ο → Prop
  | .call t o => P a.history t o
  | _ => True

variable [DecidableEq Tid]

def goto (a : Atomic Tid σ ο ρ) (t : Tid) (p : Phase ο Empty ρ) : Atomic Tid σ ο ρ :=
  { a with phase := Function.update a.phase t p }

def asked (a : Atomic Tid σ ο ρ) (t : Tid) (o : ο) : Atomic Tid σ ο ρ :=
  { a.goto t (.waits o) with history := a.history ++ [.call t o] }

def ran (a : Atomic Tid σ ο ρ) (op : σ → ο → ρ × σ) (t : Tid) (o : ο) : Atomic Tid σ ο ρ :=
  { a.goto t (.returns (op a.shared o).1) with shared := (op a.shared o).2 }

def returned (a : Atomic Tid σ ο ρ) (t : Tid) (r : ρ) : Atomic Tid σ ο ρ :=
  { a.goto t .outside with history := a.history ++ [.ret t r] }

def next (op : σ → ο → ρ × σ) (a : Atomic Tid σ ο ρ) :
    AtomicLabel Tid ο → Option (Atomic Tid σ ο ρ)
  | .call t o =>
    match a.phase t with
    | .outside => some (a.asked t o)
    | _ => none
  | .run t =>
    match a.phase t with
    | .waits o => some (a.ran op t o)
    | _ => none
  | .ret t =>
    match a.phase t with
    | .returns r => some (a.returned t r)
    | _ => none

variable {op : σ → ο → ρ × σ} {a a' : Atomic Tid σ ο ρ} {t : Tid} {o : ο} {r : ρ}

theorem next_call (ht : a.phase t = .outside) : next op a (.call t o) = some (a.asked t o) := by
  simp only [next, ht]

theorem next_run (ht : a.phase t = .waits o) : next op a (.run t) = some (a.ran op t o) := by
  simp only [next, ht]

theorem next_ret (ht : a.phase t = .returns r) :
    next op a (.ret t) = some (a.returned t r) := by
  simp only [next, ht]

/-- All that a step can be. -/
theorem next_cases {l : AtomicLabel Tid ο} (hn : next op a l = some a') :
    (∃ t o, l = .call t o ∧ a.phase t = .outside ∧ a' = a.asked t o) ∨
    (∃ t o, l = .run t ∧ a.phase t = .waits o ∧ a' = a.ran op t o) ∨
    (∃ t r, l = .ret t ∧ a.phase t = .returns r ∧ a' = a.returned t r) := by
  cases l with
  | call t o =>
    simp only [next] at hn
    split at hn
    · exact .inl ⟨t, o, rfl, ‹_›, (Option.some.inj hn).symm⟩
    · cases hn
  | run t =>
    simp only [next] at hn
    split at hn
    · exact .inr (.inl ⟨t, _, rfl, ‹_›, (Option.some.inj hn).symm⟩)
    · cases hn
  | ret t =>
    simp only [next] at hn
    split at hn
    · exact .inr (.inr ⟨t, _, rfl, ‹_›, (Option.some.inj hn).symm⟩)
    · cases hn

/-- The states of two objects that serve the same calls. -/
structure Agrees (A : Atomic Tid σ ο ρ → τ → Prop) (a : Atomic Tid σ ο ρ)
    (x : Atomic Tid τ ο ρ) : Prop where
  phase : x.phase = a.phase
  history : x.history = a.history
  shared : A a x.shared

/-- Refinement of the shared state, by a relation that may speak about the calls under way:
where a call takes effect the results agree. -/
theorem refines {P : List (Event Tid ο ρ) → Tid → ο → Prop} {op' : τ → ο → ρ × τ}
    {A : Atomic Tid σ ο ρ → τ → Prop}
    (hcall : ∀ a y t o, A a y → a.phase t = .outside → P a.history t o → A (a.asked t o) y)
    (hrun : ∀ a y t o, A a y → a.phase t = .waits o →
      (op' y o).1 = (op a.shared o).1 ∧ A (a.ran op t o) (op' y o).2)
    (hret : ∀ a y t r, A a y → a.phase t = .returns r → A (a.returned t r) y) :
    Simulation (next op) (Allowed P) (next op') (Allowed P) (Agrees A) where
  step := by
    rintro a x l a' ⟨hphase, hhistory, hA⟩ hP hn
    obtain ⟨t, o, rfl, ht, rfl⟩ | ⟨t, o, rfl, ht, rfl⟩ | ⟨t, r, rfl, ht, rfl⟩ := next_cases hn
    · have hallowed : Allowed P x (.call t o) := by
        show P x.history t o
        rw [hhistory]
        exact hP
      refine ⟨x.asked t o, .head hallowed (next_call (by rw [hphase, ht])) (.refl _), ?_, ?_,
        hcall a x.shared t o hA ht hP⟩
      · show Function.update x.phase t _ = Function.update a.phase t _
        rw [hphase]
      · show x.history ++ _ = a.history ++ _
        rw [hhistory]
    · obtain ⟨hres, hA'⟩ := hrun a x.shared t o hA ht
      have hx : x.phase t = .waits o := by rw [hphase, ht]
      refine ⟨x.ran op' t o, .head (l := .run t) trivial (next_run hx) (.refl _), ?_,
        hhistory, hA'⟩
      show Function.update x.phase t _ = Function.update a.phase t _
      rw [hphase, hres]
    · have hx : x.phase t = .returns r := by rw [hphase, ht]
      refine ⟨x.returned t r, .head (l := .ret t) trivial (next_ret hx) (.refl _), ?_, ?_,
        hret a x.shared t r hA ht⟩
      · show Function.update x.phase t _ = Function.update a.phase t _
        rw [hphase]
      · show x.history ++ _ = a.history ++ _
        rw [hhistory]

end Atomic

/-! ### The two have the same histories -/

/-- What a phase is when calls are single steps; a call has taken effect when its last
access has been made. -/
def Phase.atomic : Phase ο ℓ ρ → Phase ο Empty ρ
  | .outside => .outside
  | .waits o => .waits o
  | .inside o _ => .waits o
  | .leaves r => .returns r
  | .returns r => .returns r

/-- The phases in which a thread has the lock. -/
def Phase.locked : Phase ο ℓ ρ → Bool
  | .inside _ _ => true
  | .leaves _ => true
  | _ => false

/-- The state of the object with the lock, and where the calls are single steps: a call
under way has run alone since the shared states agreed. -/
structure Shows (b : Body σ ο ℓ ρ) (m : Machine Tid σ ο ℓ ρ) (a : Atomic Tid σ ο ρ) :
    Prop where
  history : a.history = m.history
  phase : ∀ t, a.phase t = (m.phase t).atomic
  holder : ∀ t, (m.phase t).locked = true ↔ m.holder = some t
  under : ∀ t o l, m.phase t = .inside o l →
    ∃ l₀, b.start o = .inl l₀ ∧ ReflTransGen b.Access (a.shared, l₀) (m.shared, l)
  shared : (∀ t o l, m.phase t ≠ .inside o l) → a.shared = m.shared

theorem Shows.initial {b : Body σ ο ℓ ρ} (s : σ) :
    Shows b (.initial s : Machine Tid σ ο ℓ ρ) (.initial s) where
  history := rfl
  phase _ := rfl
  holder _ := by
    constructor <;> intro h <;> cases h
  under _ _ _ h := by cases h
  shared _ := rfl

namespace Shows

variable [DecidableEq Tid] {b : Body σ ο ℓ ρ} {op : σ → ο → ρ × σ}
variable {m m' : Machine Tid σ ο ℓ ρ} {a : Atomic Tid σ ο ρ} {t u : Tid} {o : ο} {l : ℓ} {r : ρ}

omit [DecidableEq Tid] in
/-- One call at a time is under way. -/
theorem eq_of_locked (h : Shows b m a) (ht : (m.phase t).locked = true)
    (hu : (m.phase u).locked = true) : u = t := by
  have heq := ((h.holder u).mp hu).symm.trans ((h.holder t).mp ht)
  exact Option.some.inj heq

omit [DecidableEq Tid] in
theorem not_inside (hp : (m.phase t).locked = false) (o : ο) (l : ℓ) :
    m.phase t ≠ .inside o l := by
  intro heq
  rw [heq] at hp
  cases hp

/-- What a thread does outside of the lock. -/
theorem move {p : Phase ο ℓ ρ} (h : Shows b m a) (ht : (m.phase t).locked = false)
    (hp : p.locked = false) (e : Event Tid ο ρ) :
    Shows b { m.goto t p with history := m.history ++ [e] }
      { a.goto t p.atomic with history := a.history ++ [e] } := by
  have hinside : ∀ u o l, Function.update m.phase t p u = .inside o l ↔
      m.phase u = .inside o l := by
    intro u o l
    rw [Function.update_apply]
    split
    · rename_i heq
      subst heq
      constructor
      · intro hin
        rw [hin] at hp
        cases hp
      · intro hin
        exact absurd hin (not_inside ht o l)
    · rfl
  refine ⟨by rw [h.history], fun u => ?_, fun u => ?_,
    fun u o l hu => h.under u o l ((hinside u o l).mp hu),
    fun hno => h.shared fun u o l hu => hno u o l ((hinside u o l).mpr hu)⟩
  · show Function.update a.phase t p.atomic u = (Function.update m.phase t p u).atomic
    rw [Function.update_apply, Function.update_apply]
    split
    · rfl
    · exact h.phase u
  · show (Function.update m.phase t p u).locked = true ↔ m.holder = some u
    rw [← h.holder u, Function.update_apply]
    split
    · rename_i heq
      rw [heq, ht, hp]
    · rfl

/-- What a thread does with the lock: it stays inside with a call that runs alone, or it
is not inside, and the shared states agree. -/
theorem alone {p : Phase ο ℓ ρ} {w : Option Tid} {x s : σ} (h : Shows b m a)
    (hothers : ∀ u, u ≠ t → (m.phase u).locked = false)
    (hw : w = if p.locked = true then some t else none)
    (hunder : ∀ o l, p = .inside o l →
      ∃ l₀, b.start o = .inl l₀ ∧ ReflTransGen b.Access (x, l₀) (s, l))
    (hshared : (∀ o l, p ≠ .inside o l) → x = s) :
    Shows b { m.goto t p with shared := s, holder := w }
      { a.goto t p.atomic with shared := x } := by
  refine ⟨h.history, fun u => ?_, fun u => ?_, fun u o l hu => ?_, fun hno => ?_⟩
  · show Function.update a.phase t p.atomic u = (Function.update m.phase t p u).atomic
    rw [Function.update_apply, Function.update_apply]
    split
    · rfl
    · exact h.phase u
  · show (Function.update m.phase t p u).locked = true ↔ w = some u
    rw [hw, Function.update_apply]
    by_cases heq : u = t
    · subst heq
      rw [if_pos rfl]
      constructor
      · intro hp
        rw [if_pos hp]
      · intro hp
        split at hp
        · assumption
        · cases hp
    · rw [if_neg heq, hothers u heq]
      constructor
      · intro hp
        cases hp
      · intro hp
        split at hp
        · exact absurd (Option.some.inj hp).symm heq
        · cases hp
  · change Function.update m.phase t p u = .inside o l at hu
    rw [Function.update_apply] at hu
    split at hu
    · exact hunder o l hu
    · exact absurd hu (not_inside (hothers u ‹_›) o l)
  · apply hshared
    intro o l hp
    apply hno t o l
    show Function.update m.phase t p t = .inside o l
    rw [Function.update_self, hp]

omit [DecidableEq Tid] in
theorem others (h : Shows b m a) (ht : (m.phase t).locked = true) (u : Tid) (hu : u ≠ t) :
    (m.phase u).locked = false :=
  Bool.not_eq_true _ ▸ fun hlocked => hu (h.eq_of_locked ht hlocked)

omit [DecidableEq Tid] in
/-- The lock is free when nobody is inside. -/
theorem unlocked (h : Shows b m a) (hfree : m.holder = none) (u : Tid) :
    (m.phase u).locked = false := by
  rw [← Bool.not_eq_true, h.holder u, hfree]
  exact (Option.some_ne_none u).symm

/-- The phase of a call that goes on is as it was where calls are single steps. -/
theorem goto_waits (h : Shows b m a) (ht : (m.phase t).atomic = .waits o) :
    { a.goto t (.waits o) with shared := a.shared } = a := by
  have hphase : Function.update a.phase t (.waits o) = a.phase := by
    rw [← ht, ← h.phase t, Function.update_eq_self]
  rw [Atomic.goto, hphase]

end Shows

namespace Body

variable [DecidableEq Tid] {b : Body σ ο ℓ ρ} {op : σ → ο → ρ × σ}
variable {P : List (Event Tid ο ρ) → Tid → ο → Prop}

/-- **Calls under a lock are atomic.**  The object with the lock is, in its calls and
returns, an object whose calls are single steps. -/
theorem simulates (hdoes : b.Does op) :
    Simulation (Machine.next b) (Machine.Allowed P) (Atomic.next op) (Atomic.Allowed P)
      (Shows b) where
  step := by
    intro m a l m' h hP hn
    cases l with
    | call t o =>
      simp only [Machine.next] at hn
      split at hn
      · rename_i ht
        obtain rfl := Option.some.inj hn
        have ha : a.phase t = .outside := (h.phase t).trans (congrArg Phase.atomic ht)
        have hallowed : Atomic.Allowed P a (.call t o) := by
          show P a.history t o
          rw [h.history]
          exact hP
        have hcall : Atomic.next op a (.call t o) = some (a.asked t o) := Atomic.next_call ha
        cases hstart : b.start o with
        | inl l =>
          exact ⟨_, .head hallowed hcall (.refl _),
            h.move (p := .waits o) (by rw [ht]; rfl) rfl (.call t o)⟩
        | inr r =>
          -- it takes effect at once, and changes nothing
          have hop := hdoes.quick a.shared o r hstart
          have hmove := h.move (p := .returns r) (by rw [ht]; rfl) rfl (.call t o)
          have hwaits : (a.asked t o).phase t = .waits o := Function.update_self ..
          have hran : (a.asked t o).ran op t o =
              { a.goto t (.returns r) with history := a.history ++ [.call t o] } := by
            simp only [Atomic.ran, Atomic.asked, Atomic.goto, hop, Function.update_idem]
          exact ⟨_, .head hallowed hcall
            (.head (l := .run t) trivial (Atomic.next_run hwaits) (.refl _)), hran ▸ hmove⟩
      · cases hn
    | lock t =>
      simp only [Machine.next] at hn
      split at hn
      · rename_i o ht
        split at hn
        · rename_i l hstart
          split at hn
          · rename_i hfree
            obtain rfl := Option.some.inj hn
            have hshared : a.shared = m.shared :=
              h.shared fun u => Shows.not_inside (h.unlocked hfree u)
            refine ⟨a, .refl a, ?_⟩
            have hin := h.alone (t := t) (p := .inside o l) (w := some t)
              (x := a.shared) (s := m.shared) (fun u _ => h.unlocked hfree u) rfl
              (fun o' l' hl => ?_) (fun hno => absurd rfl (hno _ _))
            · rwa [Phase.atomic, h.goto_waits (by rw [ht]; rfl)] at hin
            · cases hl
              exact ⟨l, hstart, by rw [hshared]⟩
          · cases hn
        · cases hn
      · cases hn
    | access t =>
      simp only [Machine.next] at hn
      split at hn
      · rename_i o l ht
        have hlocked : (m.phase t).locked = true := by rw [ht]; rfl
        obtain ⟨l₀, hstart, hrun⟩ := h.under t o l ht
        split at hn
        · -- the call goes on
          rename_i s l' hstep
          obtain rfl := Option.some.inj hn
          refine ⟨a, .refl a, ?_⟩
          have hin := h.alone (t := t) (p := .inside o l') (w := some t) (x := a.shared) (s := s)
            (h.others hlocked) rfl (fun o' l'' hl => ?_) (fun hno => absurd rfl (hno _ _))
          · rw [Phase.atomic, h.goto_waits (by rw [ht]; rfl)] at hin
            rwa [← (h.holder t).mp hlocked] at hin
          · cases hl
            exact ⟨l₀, hstart, hrun.tail hstep⟩
        · -- the last access: the call takes effect
          rename_i s r hstep
          obtain rfl := Option.some.inj hn
          have ha : a.phase t = .waits o := (h.phase t).trans (congrArg Phase.atomic ht)
          obtain ⟨hr, hs⟩ := (hdoes.locked a.shared o l₀ hstart).unique ⟨_, hrun, hstep⟩
          have hin := h.alone (t := t) (p := .leaves r) (w := some t) (x := s) (s := s)
            (h.others hlocked) rfl (fun _ _ hl => by cases hl) (fun _ => rfl)
          rw [← (h.holder t).mp hlocked] at hin
          have hran : a.ran op t o = { a.goto t (.returns r) with shared := s } := by
            rw [Atomic.ran, hr, hs]
          exact ⟨a.ran op t o, .head (l := .run t) trivial (Atomic.next_run ha) (.refl _),
            hran ▸ hin⟩
      · cases hn
    | unlock t =>
      simp only [Machine.next] at hn
      split at hn
      · rename_i r ht
        obtain rfl := Option.some.inj hn
        have hlocked : (m.phase t).locked = true := by rw [ht]; rfl
        have hshared : a.shared = m.shared := by
          apply h.shared
          intro u o l hu
          by_cases heq : u = t
          · rw [heq, ht] at hu
            cases hu
          · exact Shows.not_inside (h.others hlocked u heq) o l hu
        have hin := h.alone (t := t) (p := .returns r) (w := none) (x := a.shared)
          (s := m.shared) (h.others hlocked) rfl (fun _ _ hl => by cases hl) (fun _ => hshared)
        have hphase : Function.update a.phase t (.returns r) = a.phase := by
          have ha : a.phase t = .returns r := (h.phase t).trans (congrArg Phase.atomic ht)
          rw [← ha, Function.update_eq_self]
        rw [Phase.atomic, Atomic.goto, hphase] at hin
        exact ⟨a, .refl a, hin⟩
      · cases hn
    | ret t =>
      simp only [Machine.next] at hn
      split at hn
      · rename_i r ht
        obtain rfl := Option.some.inj hn
        have ha : a.phase t = .returns r := (h.phase t).trans (congrArg Phase.atomic ht)
        exact ⟨a.returned t r, .head (l := .ret t) trivial (Atomic.next_ret ha) (.refl _),
          h.move (p := .outside) (by rw [ht]; rfl) rfl (.ret t r)⟩
      · cases hn

/-- Inside the lock a call is where it would be if it ran alone, from the state of a
system whose calls are single steps. -/
theorem reaches (hdoes : b.Does op) {s : σ} {m : Machine Tid σ ο ℓ ρ}
    (hr : Reaches (Machine.next b) (Machine.Allowed P) (.initial s) m) :
    ∃ a, Reaches (Atomic.next op) (Atomic.Allowed P) (.initial s) a ∧ Shows b m a :=
  (simulates hdoes).reaches (Shows.initial s) hr

end Body

end Monitor
