/-
ArtemisNative/Lib/Critical.lean

Critical sections of a larger system.

`Client` is a system with an object in its state.  Some of its steps are calls to the
object: the thread stands in front of the call (`asks`), and the step does all of the call
and goes on with the result (`resume`).  In `Fine` such a call is taken apart: the thread
takes the lock, accesses the object in place, one access after the other, gives the lock
back and goes on, and between any two of these the other threads make what other steps
they like.

Nobody can tell the difference (`simulates`): a call counts from the moment the lock is
given back.  What is asked of the client (`Lawful`) is that no other step looks at the
object, or moves a thread that stands in front of a call.  A step that does look at it, as
one that destroys it, is a matter of discipline: nobody may be inside then (`Allowed`).
The thread inside does not wait for anybody (`Shows.leaves`).
-/
import ArtemisNative.Lib.Monitor

namespace Critical

open Transition Relation Monitor

variable {Tid σ ℓ ω ο ι ρ : Type*}

/-! ### Systems with an object -/

structure Client (Tid σ ℓ ω ο ρ : Type*) where
  next : σ → ℓ → Option σ
  object : σ → ω
  withObject : σ → ω → σ
  /-- the call in front of which the thread stands -/
  asks : σ → Tid → Option ο
  /-- the thread goes on with the result of its call -/
  resume : σ → Tid → ρ → σ
  /-- the label of the step that does the call -/
  call : Tid → ℓ
  isCall : σ → ℓ → Bool
  /-- the step looks at the object without a call -/
  seizes : σ → ℓ → Bool

/-- The object is used in calls that do `op`, where the discipline is `P` and `I` an
invariant. -/
structure Lawful (c : Client Tid σ ℓ ω ο ρ) (op : ω → ο → ρ × ω) (P : σ → ℓ → Prop)
    (I : σ → Prop) : Prop where
  object_with : ∀ s w, c.object (c.withObject s w) = w
  with_object : ∀ s, c.withObject s (c.object s) = s
  with_with : ∀ s w w', c.withObject (c.withObject s w) w' = c.withObject s w'
  asks_with : ∀ s w t, c.asks (c.withObject s w) t = c.asks s t
  resume_with : ∀ s w t r, c.resume (c.withObject s w) t r = c.withObject (c.resume s t r) w
  allowed_with : ∀ s w l, P s l → P (c.withObject s w) l
  inv_with : ∀ s w, I s → I (c.withObject s w)
  keeps : ∀ s l s', I s → P s l → c.next s l = some s' → I s'
  calls : ∀ s t o, I s → c.asks s t = some o → P s (c.call t) ∧
    c.next s (c.call t) =
      some (c.withObject (c.resume s t (op (c.object s) o).1) (op (c.object s) o).2)
  aside : ∀ s l s', I s → P s l → c.isCall s l = false → c.seizes s l = false →
    c.next s l = some s' →
      (∀ w, c.next (c.withObject s w) l = some (c.withObject s' w)) ∧
      ∀ t o, c.asks s t = some o → c.asks s' t = some o

/-! ### Calls in single accesses -/

/-- A state of the system, in which the object is accessed in place, and who has the lock,
with the next access or the result. -/
structure Fine (Tid σ ι ρ : Type*) where
  state : σ
  inside : Option (Tid × (ι ⊕ ρ))

inductive Move (Tid ℓ : Type*)
  | step (l : ℓ)
  | lock (t : Tid)
  | access
  | unlock
  deriving DecidableEq, Repr

namespace Fine

/-- What anybody does, and whoever has the lock. -/
def next (c : Client Tid σ ℓ ω ο ρ) (b : Body ω ο ι ρ) (m : Fine Tid σ ι ρ) :
    Move Tid ℓ → Option (Fine Tid σ ι ρ)
  | .step l =>
    if c.isCall m.state l then none
    else (c.next m.state l).map fun s => { m with state := s }
  | .lock t =>
    match m.inside, c.asks m.state t with
    | none, some o => some { m with inside := some (t, b.start o) }
    | _, _ => none
  | .access =>
    match m.inside with
    | some (t, .inl i) =>
      let (w, x) := b.step (c.object m.state) i
      some ⟨c.withObject m.state w, some (t, x)⟩
    | _ => none
  | .unlock =>
    match m.inside with
    | some (t, .inr r) => some ⟨c.resume m.state t r, none⟩
    | _ => none

/-- The discipline of the system, and nobody is inside when the object is seized. -/
def Allowed (c : Client Tid σ ℓ ω ο ρ) (P : σ → ℓ → Prop) (m : Fine Tid σ ι ρ) :
    Move Tid ℓ → Prop
  | .step l => P m.state l ∧ (c.seizes m.state l = true → m.inside = none)
  | _ => True

instance (c : Client Tid σ ℓ ω ο ρ) (P : σ → ℓ → Prop) [∀ s, DecidablePred (P s)]
    (m : Fine Tid σ ι ρ) : DecidablePred (Allowed c P m)
  | .step l =>
    have : Decidable (m.inside = none) := decidable_of_iff _ Option.isNone_iff_eq_none
    inferInstanceAs (Decidable (P m.state l ∧ (c.seizes m.state l = true → m.inside = none)))
  | .lock _ | .access | .unlock => isTrue trivial

end Fine

/-! ### What is seen of a call under way -/

/-- A call `o` that has started with the object `w` has left the object `w'`, and goes on
with `x`. -/
def Under (b : Body ω ο ι ρ) (op : ω → ο → ρ × ω) (w : ω) (o : ο) (w' : ω) : ι ⊕ ρ → Prop
  | .inl i => ∃ i₀, b.start o = .inl i₀ ∧ ReflTransGen b.Access (w, i₀) (w', i)
  | .inr r => op w o = (r, w')

/-- The system in which calls are single steps has not begun with the one that is under
way. -/
def Shows (c : Client Tid σ ℓ ω ο ρ) (b : Body ω ο ι ρ) (op : ω → ο → ρ × ω)
    (m : Fine Tid σ ι ρ) (s : σ) : Prop :=
  match m.inside with
  | none => s = m.state
  | some (t, x) => ∃ o w, c.asks m.state t = some o ∧ s = c.withObject m.state w ∧
      Under b op w o (c.object m.state) x

section

variable {b : Body ω ο ι ρ} {op : ω → ο → ρ × ω} {w w' : ω} {o : ο} {i : ι} {x : ι ⊕ ρ}

/-- A call has not done anything when it enters. -/
theorem Under.enters (hdoes : b.Does op) (w : ω) (o : ο) : Under b op w o w (b.start o) := by
  cases hstart : b.start o with
  | inl i => exact ⟨i, hstart, .refl⟩
  | inr r => exact hdoes.quick w o r hstart

/-- One access more: the call goes on, or it has done what it should. -/
theorem Under.access (hdoes : b.Does op) (h : Under b op w o w' (.inl i)) :
    Under b op w o (b.step w' i).1 (b.step w' i).2 := by
  obtain ⟨i₀, hstart, hrun⟩ := h
  cases hx : (b.step w' i).2 with
  | inl i' => exact ⟨i₀, hstart, hrun.tail (Prod.ext rfl hx)⟩
  | inr r =>
    have hlast : b.step w' i = ((b.step w' i).1, .inr r) := Prod.ext rfl hx
    obtain ⟨hr, hw⟩ := (hdoes.locked w o i₀ hstart).unique ⟨_, hrun, hlast⟩
    exact Prod.ext hr hw

end

/-! ### The simulation -/

section

variable {c : Client Tid σ ℓ ω ο ρ} {b : Body ω ο ι ρ} {op : ω → ο → ρ × ω}
variable {P : σ → ℓ → Prop} {I : σ → Prop} {m m' : Fine Tid σ ι ρ} {s s' x : σ} {l : ℓ}
variable {t : Tid} {r : ρ}

/-- A step aside leaves the object as it is. -/
theorem Lawful.object_aside (h : Lawful c op P I) (hI : I s) (hP : P s l)
    (hcall : c.isCall s l = false) (hseizes : c.seizes s l = false)
    (hn : c.next s l = some s') : c.object s' = c.object s := by
  have hsame := (h.aside s l s' hI hP hcall hseizes hn).1 (c.object s)
  rw [h.with_object, hn] at hsame
  rw [Option.some.inj hsame, h.object_with]

/-- Somebody makes a step that has nothing to do with the object, whether or not another
one is inside. -/
theorem Shows.aside (h : Lawful c op P I) (hs : Shows c b op m s) (hI : I m.state)
    (hP : P m.state l) (hcall : c.isCall m.state l = false)
    (hseizes : c.seizes m.state l = false) (hn : c.next m.state l = some s') :
    ∃ x, P s l ∧ c.next s l = some x ∧ Shows c b op { m with state := s' } x := by
  obtain ⟨hnext, hasks⟩ := h.aside m.state l s' hI hP hcall hseizes hn
  obtain ⟨state, inside⟩ := m
  cases inside with
  | none =>
    obtain rfl : s = state := hs
    exact ⟨s', hP, hn, rfl⟩
  | some y =>
    obtain ⟨t, y⟩ := y
    obtain ⟨o, w, ho, rfl, hunder⟩ := hs
    refine ⟨c.withObject s' w, h.allowed_with state w l hP, hnext w, o, w, hasks t o ho, rfl, ?_⟩
    show Under b op w o (c.object s') y
    rw [h.object_aside hI hP hcall hseizes hn]
    exact hunder

/-- Somebody seizes the object, and nobody is inside. -/
theorem Shows.seize (hs : Shows c b op m s) (hnone : m.inside = none) (hP : P m.state l)
    (hn : c.next m.state l = some s') :
    ∃ x, P s l ∧ c.next s l = some x ∧ Shows c b op { m with state := s' } x := by
  obtain ⟨state, inside⟩ := m
  obtain rfl : inside = none := hnone
  obtain rfl : s = state := hs
  exact ⟨s', hP, hn, rfl⟩

/-- The lock is given back: this is the step that does the call. -/
theorem Shows.unlock (h : Lawful c op P I) (hs : Shows c b op m s)
    (hin : m.inside = some (t, .inr r)) (hI : I s) :
    P s (c.call t) ∧ c.next s (c.call t) = some (c.resume m.state t r) := by
  obtain ⟨state, inside⟩ := m
  obtain rfl : inside = some (t, .inr r) := hin
  obtain ⟨o, w, ho, rfl, hunder⟩ := hs
  obtain ⟨hP, hnext⟩ := h.calls (c.withObject state w) t o hI (by rw [h.asks_with]; exact ho)
  have hop : op w o = (r, c.object state) := hunder
  refine ⟨hP, hnext.trans (congrArg some ?_)⟩
  calc c.withObject (c.resume (c.withObject state w) t (op (c.object (c.withObject state w)) o).1)
        (op (c.object (c.withObject state w)) o).2
      = c.withObject (c.resume (c.withObject state w) t r) (c.object state) := by
        rw [h.object_with, hop]
    _ = c.withObject (c.resume state t r) (c.object state) := by
        rw [h.resume_with, h.with_with]
    _ = c.resume state t r := by
        rw [← h.resume_with, h.with_object]

/-- Both states of a pair are of the invariant. -/
theorem Shows.inv (h : Lawful c op P I) (hs : Shows c b op m s) (hI : I s) : I m.state := by
  obtain ⟨state, inside⟩ := m
  cases inside with
  | none =>
    obtain rfl : s = state := hs
    exact hI
  | some y =>
    obtain ⟨t, y⟩ := y
    obtain ⟨o, w, -, rfl, -⟩ := hs
    have hback := h.inv_with _ (c.object state) hI
    rwa [h.with_with, h.with_object] at hback

/-- **Critical sections are single steps.**  The system in which the calls are taken apart
is one way to run the system in which they are not. -/
theorem simulates (h : Lawful c op P I) (hdoes : b.Does op) :
    Simulation (Fine.next c b) (Fine.Allowed c P) c.next P
      fun (m : Fine Tid σ ι ρ) s => I s ∧ Shows c b op m s where
  step := by
    rintro m s l m' ⟨hI, hs⟩ hP hn
    cases l with
    | step l =>
      simp only [Fine.next] at hn
      split at hn
      · cases hn
      rename_i hcall
      obtain ⟨s', hs', rfl⟩ := Option.map_eq_some_iff.mp hn
      have hstep : ∃ x, P s l ∧ c.next s l = some x ∧
          Shows c b op { m with state := s' } x := by
        by_cases hseizes : c.seizes m.state l = true
        · exact hs.seize (hP.2 hseizes) hP.1 hs'
        · exact hs.aside h (hs.inv h hI) hP.1 (Bool.eq_false_iff.mpr hcall)
            (Bool.eq_false_iff.mpr hseizes) hs'
      obtain ⟨x, hPs, hx, hshows⟩ := hstep
      exact ⟨x, .head hPs hx (.refl _), h.keeps s l x hI hPs hx, hshows⟩
    | lock t =>
      simp only [Fine.next] at hn
      split at hn
      · rename_i o hnone ho
        obtain rfl := Option.some.inj hn
        -- nothing is shown yet: the object seen is the one at the entry
        refine ⟨s, .refl s, hI, o, c.object m.state, ho, ?_, Under.enters hdoes _ o⟩
        rw [Shows, hnone] at hs
        rw [hs, h.with_object]
      · cases hn
    | access =>
      simp only [Fine.next] at hn
      split at hn
      · rename_i t i hin
        obtain rfl := Option.some.inj hn
        rw [Shows, hin] at hs
        obtain ⟨o, w, ho, rfl, hunder⟩ := hs
        -- the object in place has changed, and the one seen has not
        refine ⟨_, .refl _, hI, o, w, ?_, ?_, ?_⟩
        · rw [h.asks_with]
          exact ho
        · rw [h.with_with]
        · rw [h.object_with]
          exact hunder.access hdoes
      · cases hn
    | unlock =>
      simp only [Fine.next] at hn
      split at hn
      · rename_i t r hin
        obtain rfl := Option.some.inj hn
        obtain ⟨hPs, hx⟩ := hs.unlock h hin hI
        exact ⟨_, .head hPs hx (.refl _), h.keeps _ _ _ hI hPs hx, rfl⟩
      · cases hn

/-- The accesses that are left, and the lock given back. -/
theorem Fine.leaves (hobject : ∀ s w, c.object (c.withObject s w) = w) {w' : ω} {i : ι}
    (hends : b.Ends (c.object s, i) r w') :
    ∃ m', Reaches (Fine.next c b) (fun _ l => l = .access ∨ l = .unlock)
      ⟨s, some (t, .inl i)⟩ m' ∧ m'.inside = none := by
  obtain ⟨z, hz, hlast⟩ := hends
  generalize hx : (c.object s, i) = x at hz
  induction hz using ReflTransGen.head_induction_on generalizing s i with
  | refl =>
    subst hx
    have hunlock : Fine.next c b ⟨c.withObject s w', some (t, .inr r)⟩ .unlock =
        some ⟨c.resume (c.withObject s w') t r, none⟩ := rfl
    refine ⟨_, .head (l := .access) (.inl rfl) ?_ (.head (.inr rfl) hunlock (.refl _)), rfl⟩
    simp only [Fine.next, hlast]
  | @head x y hxy _ ih =>
    subst hx
    have hstep : b.step (c.object s) i = (y.1, .inl y.2) := hxy
    obtain ⟨m', hr, hnone⟩ := ih (s := c.withObject s y.1) (i := y.2) (by rw [hobject])
    refine ⟨m', .head (l := .access) (.inl rfl) ?_ hr, hnone⟩
    simp only [Fine.next, hstep]

/-- **Who is inside gets out**, by accesses alone, whatever the other threads wait for. -/
theorem Shows.leaves (h : Lawful c op P I) (hdoes : b.Does op) (hs : Shows c b op m s) :
    ∃ m', Reaches (Fine.next c b) (fun _ l => l = .access ∨ l = .unlock) m m' ∧
      m'.inside = none := by
  obtain ⟨state, inside⟩ := m
  cases inside with
  | none => exact ⟨_, .refl _, rfl⟩
  | some y =>
    obtain ⟨t, y⟩ := y
    obtain ⟨o, w, -, -, hunder⟩ := hs
    cases y with
    | inr r =>
      exact ⟨⟨c.resume state t r, none⟩, .head (l := .unlock) (.inr rfl) rfl (.refl _), rfl⟩
    | inl i =>
      obtain ⟨i₀, hstart, hrun⟩ := hunder
      exact Fine.leaves h.object_with ((hdoes.locked w o i₀ hstart).rest hrun)

end

end Critical
