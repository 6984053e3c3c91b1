/-
ArtemisNative/Lib/Simulation.lean

Forward simulations between two labelled step functions.

`Simulation next P next' P' R` says that a system whose labels obey `P` is one
way to run a more abstract system: where the states are related by `R`, each
allowed step is answered by a run of the abstract system, of any length, under
its own discipline `P'`, and the states are related again.

* `Simulation.reaches` lifts this to runs, `Simulation.invariant` carries a
  property of all abstract runs down.
* `Simulation.comp` puts two levels together.
* `Simulation.of_invariant` builds one from facts that need an invariant of the
  concrete system.

Where each step is the same step of the abstract system, `Run.map` keeps the labels.
-/
import ArtemisNative.Lib.Transition

namespace Transition

variable {σ τ υ ℓ ℓ' ℓ'' : Type*}
variable {next : σ → ℓ → Option σ} {P : σ → ℓ → Prop}
variable {next' : τ → ℓ' → Option τ} {P' : τ → ℓ' → Prop}
variable {next'' : υ → ℓ'' → Option υ} {P'' : υ → ℓ'' → Prop}
variable {R : σ → τ → Prop} {S : τ → υ → Prop} {s s' : σ} {x : τ}

/-- Every allowed step of the one system is a run of the other. -/
structure Simulation (next : σ → ℓ → Option σ) (P : σ → ℓ → Prop)
    (next' : τ → ℓ' → Option τ) (P' : τ → ℓ' → Prop) (R : σ → τ → Prop) : Prop where
  step : ∀ s x l s', R s x → P s l → next s l = some s' →
    ∃ x', Reaches next' P' x x' ∧ R s' x'

namespace Simulation

theorem reaches (h : Simulation next P next' P' R) (hR : R s x) (hr : Reaches next P s s') :
    ∃ x', Reaches next' P' x x' ∧ R s' x' := by
  apply hr.invariant (I := fun s => ∃ x', Reaches next' P' x x' ∧ R s x') ⟨x, .refl x, hR⟩
  rintro s l s' ⟨y, hy, hR⟩ hP hn
  obtain ⟨y', hy', hR'⟩ := h.step s y l s' hR hP hn
  exact ⟨y', hy.trans hy', hR'⟩

/-- What holds in all states an abstract run reaches holds, through the relation,
in all states a concrete run reaches. -/
theorem invariant {I : τ → Prop} (h : Simulation next P next' P' R) (hR : R s x)
    (hI : ∀ x', Reaches next' P' x x' → I x') (hr : Reaches next P s s') :
    ∃ x', R s' x' ∧ I x' := by
  obtain ⟨x', hx', hR'⟩ := h.reaches hR hr
  exact ⟨x', hR', hI x' hx'⟩

/-- The abstract system may be used under a weaker discipline. -/
theorem mono {Q' : τ → ℓ' → Prop} (h : Simulation next P next' P' R)
    (hQ : ∀ x l, P' x l → Q' x l) : Simulation next P next' Q' R where
  step := by
    intro s x l s' hR hP hn
    obtain ⟨x', ⟨ls, hr⟩, hR'⟩ := h.step s x l s' hR hP hn
    exact ⟨x', ⟨ls, hr.mono hQ⟩, hR'⟩

theorem comp (h : Simulation next P next' P' R) (h' : Simulation next' P' next'' P'' S) :
    Simulation next P next'' P'' (fun s y => ∃ x, R s x ∧ S x y) where
  step := by
    rintro s y l s' ⟨x, hR, hS⟩ hP hn
    obtain ⟨x', hx', hR'⟩ := h.step s x l s' hR hP hn
    obtain ⟨y', hy', hS'⟩ := h'.reaches hS hx'
    exact ⟨y', hy', x', hR', hS'⟩

/-- A simulation whose steps are only known where an invariant holds. -/
theorem of_invariant {I : σ → Prop}
    (hinv : ∀ s l s', I s → P s l → next s l = some s' → I s')
    (hstep : ∀ s x l s', I s → R s x → P s l → next s l = some s' →
      ∃ x', Reaches next' P' x x' ∧ R s' x') :
    Simulation next P next' P' (fun s x => I s ∧ R s x) where
  step := by
    rintro s x l s' ⟨hI, hR⟩ hP hn
    obtain ⟨x', hx', hR'⟩ := hstep s x l s' hI hR hP hn
    exact ⟨x', hx', hinv s l s' hI hP hn, hR'⟩

end Simulation

/-- A run goes through a map of states, label by label, if an invariant makes every
allowed step one of the abstract system. -/
theorem Run.map {next' : τ → ℓ → Option τ} {I : σ → Prop} {ls : List ℓ} (f : σ → τ)
    (h : Run next P s ls s') (h₀ : I s)
    (hstep : ∀ s l s', I s → P s l → next s l = some s' → I s' ∧ next' (f s) l = some (f s')) :
    Run next' (fun _ _ => True) (f s) ls (f s') ∧ I s' := by
  induction h with
  | nil => exact ⟨.nil _, h₀⟩
  | cons hP hn _ ih =>
    obtain ⟨hI, hn'⟩ := hstep _ _ _ h₀ hP hn
    obtain ⟨hr, hI'⟩ := ih hI
    exact ⟨.cons trivial hn' hr, hI'⟩

end Transition
