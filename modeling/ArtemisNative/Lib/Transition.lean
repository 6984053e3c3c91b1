/-
ArtemisNative/Lib/Transition.lean

Labelled runs of an executable step function.

A system is a function `next : σ → ℓ → Option σ`: a label says who moves and
what the environment answers, `none` that the move is impossible.  `Run next P`
are the finite runs all of whose labels satisfy the discipline `P` in the state
they are taken from, so that one system serves theorems under several
assumptions on its users.

* `Run.invariant` packages the induction over a run, `Run.of_end` the one from
  its end, `Run.rank` the one that counts down to a goal.
* `exec` computes a run and checks the discipline on the way; `Run.of_exec`
  makes a run from a computation.
* `net` adds up what some of the labels of a run change in a quantity, `tally`
  counts the labels that do something.
-/
import Mathlib.Algebra.Order.Ring.Int

namespace Transition

variable {σ ℓ : Type*} {next : σ → ℓ → Option σ} {P Q : σ → ℓ → Prop}
variable {s s' s'' : σ} {l : ℓ} {ls ls' : List ℓ}

/-- Runs whose labels satisfy `P` where they are taken. -/
inductive Run (next : σ → ℓ → Option σ) (P : σ → ℓ → Prop) : σ → List ℓ → σ → Prop
  | nil (s : σ) : Run next P s [] s
  | cons {s : σ} {l : ℓ} {s' : σ} {ls : List ℓ} {s'' : σ} :
      P s l → next s l = some s' → Run next P s' ls s'' → Run next P s (l :: ls) s''

/-- Reachability by a run under the discipline `P`. -/
def Reaches (next : σ → ℓ → Option σ) (P : σ → ℓ → Prop) (s s' : σ) : Prop :=
  ∃ ls, Run next P s ls s'

theorem Run.append (h : Run next P s ls s') (h' : Run next P s' ls' s'') :
    Run next P s (ls ++ ls') s'' := by
  induction h with
  | nil => exact h'
  | cons hP hn _ ih => exact .cons hP hn (ih h')

theorem Run.split (h : Run next P s (ls ++ ls') s'') :
    ∃ s', Run next P s ls s' ∧ Run next P s' ls' s'' := by
  induction ls generalizing s with
  | nil => exact ⟨s, .nil s, h⟩
  | cons l ls ih =>
    cases h with
    | cons hP hn hr =>
      obtain ⟨s', hr₁, hr₂⟩ := ih hr
      exact ⟨s', .cons hP hn hr₁, hr₂⟩

/-- The labels determine where a run ends. -/
theorem Run.unique (h : Run next P s ls s') (h' : Run next Q s ls s'') : s' = s'' := by
  induction h with
  | nil =>
    cases h'
    rfl
  | cons _ hn _ ih =>
    cases h' with
    | cons _ hn' hr =>
      obtain rfl := Option.some.inj (hn.symm.trans hn')
      exact ih hr

theorem Run.mono (h : Run next P s ls s') (hPQ : ∀ s l, P s l → Q s l) :
    Run next Q s ls s' := by
  induction h with
  | nil => exact .nil _
  | cons hP hn _ ih => exact .cons (hPQ _ _ hP) hn ih

/-- What holds of all labels of a run can be added to its discipline. -/
theorem Run.and_of_forall {R : ℓ → Prop} (h : Run next P s ls s') (hR : ∀ l ∈ ls, R l) :
    Run next (fun s l => P s l ∧ R l) s ls s' := by
  induction h with
  | nil => exact .nil _
  | cons hP hn _ ih =>
    refine .cons ⟨hP, hR _ List.mem_cons_self⟩ hn (ih fun l hl => ?_)
    exact hR l (List.mem_cons_of_mem _ hl)

/-- A property that holds at the start and is kept by every allowed step holds
at the end. -/
theorem Run.invariant {I : σ → Prop} (h : Run next P s ls s') (h₀ : I s)
    (hstep : ∀ s l s', I s → P s l → next s l = some s' → I s') : I s' := by
  induction h with
  | nil => exact h₀
  | cons hP hn _ ih => exact ih (hstep _ _ _ h₀ hP hn)

/-- A run under `P` is a run under `Q` if an invariant of it turns one into the
other at every step. -/
theorem Run.mono_of_invariant {I : σ → Prop} (h : Run next P s ls s') (h₀ : I s)
    (hstep : ∀ s l s', I s → P s l → next s l = some s' → I s' ∧ Q s l) :
    Run next Q s ls s' := by
  induction h with
  | nil => exact .nil _
  | cons hP hn _ ih =>
    obtain ⟨hI, hQ⟩ := hstep _ _ _ h₀ hP hn
    exact .cons hQ hn (ih hI)

/-- Steps that are `mine` bring the goal `G` closer, and no step takes it away:
after `rank s` such steps the goal is reached. -/
theorem Run.rank {I G : σ → Prop} (mine : ℓ → Bool) (rank : σ → ℕ) (h : Run next P s ls s')
    (h₀ : I s) (hinv : ∀ s l s', I s → P s l → next s l = some s' → I s')
    (hgoal : ∀ s l s', I s → P s l → next s l = some s' → G s → G s')
    (hrank : ∀ s l s', I s → P s l → next s l = some s' → ¬G s →
      rank s' + (if mine l then 1 else 0) ≤ rank s) :
    G s' ∨ rank s' + ls.countP mine ≤ rank s := by
  induction h with
  | nil => exact .inr le_rfl
  | @cons s l s₁ ls s' hP hn hr ih =>
    have ih := ih (hinv _ _ _ h₀ hP hn)
    by_cases hG : G s
    · refine .inl (hr.invariant (I := fun s => I s ∧ G s)
        ⟨hinv _ _ _ h₀ hP hn, hgoal _ _ _ h₀ hP hn hG⟩ ?_).2
      exact fun s l s' hI hP hn => ⟨hinv _ _ _ hI.1 hP hn, hgoal _ _ _ hI.1 hP hn hI.2⟩
    · have hstep := hrank _ _ _ h₀ hP hn hG
      refine ih.imp_right fun ih => ?_
      rw [List.countP_cons]
      omega

/-- A property of the end that could only hold if every step obeyed `Q` makes the
run one under `Q`. -/
theorem Run.of_end {G : σ → Prop} (h : Run next P s ls s') (hG : G s')
    (hback : ∀ s l s', P s l → next s l = some s' → G s' → G s ∧ Q s l) :
    Run next Q s ls s' ∧ G s := by
  induction h with
  | nil => exact ⟨.nil _, hG⟩
  | cons hP hn _ ih =>
    obtain ⟨hr, hG'⟩ := ih hG
    obtain ⟨hG₀, hQ⟩ := hback _ _ _ hP hn hG'
    exact ⟨.cons hQ hn hr, hG₀⟩

/-- A property that a step keeps exactly if it obeys `Q` holds all along a run if and
only if all steps obey `Q`. -/
theorem Run.forall_iff {I G : σ → Prop} (h : Run next P s ls s') (hI : I s) (hG : G s)
    (hinv : ∀ s l s', I s → P s l → next s l = some s' → I s')
    (hstep : ∀ s l s', I s → G s → P s l → next s l = some s' → (G s' ↔ Q s l)) :
    (∀ ls₁ ls₂ x, ls = ls₁ ++ ls₂ → Run next P s ls₁ x → G x) ↔
      Run next (fun s l => P s l ∧ Q s l) s ls s' := by
  constructor
  · intro hall
    induction h with
    | nil => exact .nil _
    | @cons s l s₁ ls s' hP hn _ ih =>
      have hG₁ : G s₁ := hall [l] ls s₁ rfl (.cons hP hn (.nil _))
      refine .cons ⟨hP, (hstep _ _ _ hI hG hP hn).mp hG₁⟩ hn (ih (hinv _ _ _ hI hP hn) hG₁ ?_)
      rintro ls₁ ls₂ x rfl hx
      exact hall (l :: ls₁) ls₂ x rfl (.cons hP hn hx)
  · rintro hQ ls₁ ls₂ x rfl hx
    -- the state is reached by the first labels of the run
    obtain ⟨y, hy, -⟩ := hQ.split
    obtain rfl := hx.unique hy
    refine (hy.invariant (I := fun s => I s ∧ G s) ⟨hI, hG⟩ ?_).2
    rintro s l s' ⟨hI, hG⟩ ⟨hP, hQ⟩ hn
    exact ⟨hinv _ _ _ hI hP hn, (hstep _ _ _ hI hG hP hn).mpr hQ⟩

/-- A property that holds behind a step just if it held before and the step obeys `Q` holds
at the end of a run just if it held at the start and all steps obey `Q`. -/
theorem Run.iff_of_step {I G : σ → Prop} (h : Run next P s ls s') (hI : I s)
    (hinv : ∀ s l s', I s → P s l → next s l = some s' → I s')
    (hstep : ∀ s l s', I s → P s l → next s l = some s' → (G s' ↔ G s ∧ Q s l)) :
    G s' ↔ G s ∧ Run next (fun s l => P s l ∧ Q s l) s ls s' := by
  induction h with
  | nil s => exact ⟨fun hG => ⟨hG, .nil s⟩, fun hG => hG.1⟩
  | @cons s l s₁ ls s' hP hn _ ih =>
    rw [ih (hinv _ _ _ hI hP hn), hstep _ _ _ hI hP hn]
    constructor
    · rintro ⟨⟨hG, hQ⟩, hr⟩
      exact ⟨hG, .cons ⟨hP, hQ⟩ hn hr⟩
    · rintro ⟨hG, hr⟩
      cases hr with
      | cons hPQ hn' hr =>
        obtain rfl := Option.some.inj (hn.symm.trans hn')
        exact ⟨⟨hG, hPQ.2⟩, hr⟩

theorem Reaches.refl (s : σ) : Reaches next P s s := ⟨[], .nil s⟩

theorem Reaches.trans (h : Reaches next P s s') (h' : Reaches next P s' s'') :
    Reaches next P s s'' := by
  obtain ⟨ls, hr⟩ := h
  obtain ⟨ls', hr'⟩ := h'
  exact ⟨ls ++ ls', hr.append hr'⟩

theorem Reaches.step (h : Reaches next P s s') (hP : P s' l) (hn : next s' l = some s'') :
    Reaches next P s s'' :=
  h.trans ⟨[l], .cons hP hn (.nil _)⟩

theorem Reaches.head (hP : P s l) (hn : next s l = some s') (h : Reaches next P s' s'') :
    Reaches next P s s'' := by
  obtain ⟨ls, hr⟩ := h
  exact ⟨l :: ls, .cons hP hn hr⟩

theorem Reaches.invariant {I : σ → Prop} (h : Reaches next P s s') (h₀ : I s)
    (hstep : ∀ s l s', I s → P s l → next s l = some s' → I s') : I s' := by
  obtain ⟨ls, hr⟩ := h
  exact hr.invariant h₀ hstep

/-! ### Computing a run -/

/-- Take the labels one after the other, checking the discipline. -/
def exec (next : σ → ℓ → Option σ) (P : σ → ℓ → Prop) [∀ s l, Decidable (P s l)] (s : σ) :
    List ℓ → Option σ
  | [] => some s
  | l :: ls =>
    if P s l then
      match next s l with
      | none => none
      | some s' => exec next P s' ls
    else none

theorem Run.of_exec [∀ s l, Decidable (P s l)] (h : exec next P s ls = some s') :
    Run next P s ls s' := by
  induction ls generalizing s with
  | nil =>
    obtain rfl := Option.some.inj h
    exact .nil _
  | cons l ls ih =>
    simp only [exec] at h
    split at h
    · rename_i hP
      split at h
      · cases h
      · rename_i s₁ hn
        exact .cons hP hn (ih h)
    · cases h

/-- A computed run that ends in a state with the property `Q`. -/
theorem exists_run_of_exec (next : σ → ℓ → Option σ) (P : σ → ℓ → Prop)
    [∀ s l, Decidable (P s l)] (s : σ) (ls : List ℓ) (Q : σ → Prop) [DecidablePred Q]
    (h : (exec next P s ls).any fun s' => decide (Q s')) : ∃ s', Run next P s ls s' ∧ Q s' := by
  obtain ⟨s', hs', hQ⟩ := (Option.any_eq_true _ _).mp h
  exact ⟨s', .of_exec hs', of_decide_eq_true hQ⟩

theorem exists_of_exec (next : σ → ℓ → Option σ) (P : σ → ℓ → Prop) [∀ s l, Decidable (P s l)]
    (s : σ) (ls : List ℓ) (Q : σ → Prop) [DecidablePred Q]
    (h : (exec next P s ls).any fun s' => decide (Q s')) : ∃ s', Reaches next P s s' ∧ Q s' := by
  obtain ⟨s', hr, hQ⟩ := exists_run_of_exec next P s ls Q h
  exact ⟨s', ⟨ls, hr⟩, hQ⟩

/-! ### What some labels of a run change -/

/-- The sum of the changes of `f` over the labels of a run that are `mine`. -/
def net (next : σ → ℓ → Option σ) (mine : ℓ → Bool) (f : σ → ℤ) (s : σ) : List ℓ → ℤ
  | [] => 0
  | l :: ls =>
    match next s l with
    | none => 0
    | some s' => (if mine l then f s' - f s else 0) + net next mine f s' ls

/-- A quantity that moves with the changes. -/
theorem Run.net_eq {I : σ → Prop} (mine : ℓ → Bool) (f g : σ → ℤ) (h : Run next P s ls s')
    (h₀ : I s) (hstep : ∀ s l s', I s → P s l → next s l = some s' →
      I s' ∧ (if mine l then f s' - f s else 0) = g s' - g s) :
    net next mine f s ls = g s' - g s := by
  induction h with
  | nil => exact (sub_self _).symm
  | cons hP hn _ ih =>
    obtain ⟨hI, hf⟩ := hstep _ _ _ h₀ hP hn
    simp only [net, hn]
    rw [ih hI, hf]
    omega

/-! ### How often a run does something -/

/-- The number of labels of a run that are marked in the state they are taken
from. -/
def tally (next : σ → ℓ → Option σ) (mark : σ → ℓ → Bool) (s : σ) : List ℓ → ℕ
  | [] => 0
  | l :: ls =>
    match next s l with
    | none => 0
    | some s' => (if mark s l then 1 else 0) + tally next mark s' ls

/-- A quantity that counts the marked labels. -/
theorem Run.tally_eq {I : σ → Prop} (mark : σ → ℓ → Bool) (f : σ → ℕ)
    (h : Run next P s ls s') (h₀ : I s)
    (hstep : ∀ s l s', I s → P s l → next s l = some s' →
      I s' ∧ f s' = f s + if mark s l then 1 else 0) :
    f s' = f s + tally next mark s ls := by
  induction h with
  | nil => rfl
  | cons hP hn _ ih =>
    obtain ⟨hI, hf⟩ := hstep _ _ _ h₀ hP hn
    simp only [tally, hn]
    rw [ih hI, hf, Nat.add_assoc]

/-- None is marked in a run all of whose steps are unmarked, and in no other. -/
theorem Run.tally_eq_zero_iff (mark : σ → ℓ → Bool) (h : Run next P s ls s') :
    tally next mark s ls = 0 ↔ Run next (fun s l => P s l ∧ mark s l = false) s ls s' := by
  induction h with
  | nil => exact iff_of_true rfl (.nil _)
  | @cons s l s₁ ls s' hP hn _ ih =>
    simp only [tally, hn]
    rw [Nat.add_eq_zero_iff, ih]
    constructor
    · rintro ⟨hmark, hr⟩
      exact .cons ⟨hP, by simpa using hmark⟩ hn hr
    · intro hr
      cases hr with
      | cons hP hn' hr =>
        obtain rfl := Option.some.inj (hn.symm.trans hn')
        exact ⟨by simp [hP.2], hr⟩

end Transition
