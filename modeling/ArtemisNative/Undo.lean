/-
ArtemisNative/Undo.lean

What a failed submission leaves behind.

`submit` of the native library undoes a submission that `io_submit` rejects:
"Putting the Global Ref and IOCB back in case of a failure".  The Java method
that called it does not: the permit it has acquired from `ioSpace` stays
acquired, because only `done` and `poll(callbacks, ..)` release permits.

What a call takes is measured over its own steps (`Transition.net`), so that it
makes no difference what the other threads do in between.  `taken` says, at each
place of the call, what it has taken so far; every step of the call moves the
two together (`taken_step`), and so does a whole run (`net_eq_taken`).
-/
import ArtemisNative.Requests

namespace ArtemisNative

open Transition

variable {Tid : Type} [DecidableEq Tid] {cfg : Config} {s s' : State Tid} {t u : Tid}
variable {b : ℕ} {ans : Answer} {l : Label Tid} {ls : List (Label Tid)} {env : Process}

/-! ### What a submission takes -/

inductive Resource
  /-- the available permits of `ioSpace` -/
  | permits
  /-- the counter `used` -/
  | used
  /-- the iocb `b`, one if it is free -/
  | iocb (b : ℕ)
  /-- the global reference `r`, one if it is live -/
  | ref (r : ℕ)
  deriving DecidableEq

def State.amount (s : State Tid) : Resource → ℤ
  | .permits => s.ioSpace
  | .used => s.pool.used
  | .iocb b => if b ∈ s.outstanding then 0 else 1
  | .ref r => if s.refs.live r = none then 0 else 1

/-- A permit has been acquired. -/
def permit (cfg : Config) : Resource → ℤ
  | .permits => if cfg.useSemaphore then -1 else 0
  | _ => 0

/-- The iocb `b` has been taken out of the pool. -/
def owning (b : ℕ) : Resource → ℤ
  | .used => 1
  | .iocb b' => if b' = b then -1 else 0
  | _ => 0

/-- The reference in `data` has been made. -/
def naming (data : IocbData) : Resource → ℤ
  | .ref r => if data = .ref r then 1 else 0
  | _ => 0

/-- What the submission of thread `t` has changed so far. -/
def State.taken (cfg : Config) (s : State Tid) (t : Tid) : Resource → ℤ :=
  match s.pc t with
  | .submit (.getIOCB _) | .idle (.threw .noSpace) | .idle (.threw (.submitting _)) => permit cfg
  | .submit (.prep _ b) | .submit (.putIOCB b _) => permit cfg + owning b
  | .submit (.ioSubmit _ b) | .submit (.deleteRef b _) =>
    permit cfg + owning b + naming (s.iocb b).data
  | _ => 0

omit [DecidableEq Tid] in
theorem amount_acquire (hsem : cfg.useSemaphore = true) (hpos : 0 < s.ioSpace) :
    ({ s with ioSpace := s.ioSpace - 1 } : State Tid).amount = s.amount + permit cfg := by
  funext x
  cases x with
  | permits =>
    simp only [State.amount, permit, hsem, Pi.add_apply, if_true]
    omega
  | _ => exact (add_zero _).symm

omit [DecidableEq Tid] in
theorem amount_handOut {pool : IocbPool} (h : Owned cfg s)
    (hg : s.pool.getIOCB = some (b, pool)) :
    (s.handOut b pool).amount = s.amount + owning b := by
  obtain ⟨-, hb, hacc⟩ := h.accounts.getIOCB hg
  funext x
  cases x with
  | used =>
    simp only [State.amount, State.handOut, owning, Pi.add_apply, hacc.used_eq, h.accounts.used_eq,
      Finset.card_insert_of_notMem hb]
    omega
  | iocb d =>
    simp only [State.amount, State.handOut, owning, Pi.add_apply, Finset.mem_insert]
    by_cases hd : d = b
    · simp [hd, hb]
    · simp [hd]
  | _ => exact (add_zero _).symm

omit [DecidableEq Tid] in
theorem amount_putBack (hb : b ∈ s.outstanding) :
    (s.putBack b).amount = s.amount - owning b := by
  funext x
  cases x with
  | used => rfl
  | iocb d =>
    simp only [State.amount, State.putBack, owning, Pi.sub_apply, Finset.mem_erase]
    by_cases hd : d = b
    · simp [hd, hb]
    · simp [hd]
  | _ => exact (sub_zero _).symm

omit [DecidableEq Tid] in
theorem amount_new (callback : Option ℕ) :
    ({ s with refs := (s.refs.new callback).2 } : State Tid).amount
      = s.amount + naming (s.refs.new callback).1 := by
  funext x
  cases x with
  | ref r =>
    simp only [State.amount, naming, Pi.add_apply]
    by_cases hr : (s.refs.new callback).1 = .ref r
    · have hdead := GlobalRefs.new_fresh hr
      obtain ⟨c, rfl⟩ : ∃ c, callback = some c := by
        cases callback with
        | none => cases hr
        | some c => exact ⟨c, rfl⟩
      obtain rfl := IocbData.ref.inj hr
      simp [GlobalRefs.new, hdead]
    · have hsame : (s.refs.new callback).2.live r = s.refs.live r := by
        cases callback with
        | none => rfl
        | some c =>
          refine Function.update_of_ne ?_ _ _
          rintro rfl
          exact hr rfl
      rw [hsame, if_neg hr, add_zero]
  | _ => exact (add_zero _).symm

omit [DecidableEq Tid] in
theorem amount_deleteRef {data : IocbData}
    (hlive : ∀ r, data = .ref r → s.refs.live r ≠ none) :
    (s.deleteRef data).amount = s.amount - naming data := by
  funext x
  cases x with
  | ref r =>
    simp only [State.amount, State.deleteRef, naming, Pi.sub_apply]
    cases data with
    | ref r' =>
      by_cases hr : r = r'
      · subst hr
        simp [GlobalRefs.delete, hlive r rfl]
      · simp [GlobalRefs.delete, hr, Ne.symm hr]
    | null | stop =>
      simp only [reduceCtorEq, if_false, sub_zero]
      rfl
  | _ => exact (sub_zero _).symm

/-! ### What one step takes -/

/-- The steps of the other threads do not change what the submission has taken. -/
theorem taken_other (h : Owned cfg s) (hn : next cfg s l = some s') (hl : l.tid? ≠ some t) :
    s'.taken cfg t = s.taken cfg t := by
  have hpc : s'.pc t = s.pc t := next_pc_of_ne hn hl
  unfold State.taken
  rw [hpc]
  split
  · rfl
  · rfl
  · rfl
  · rfl
  · rfl
  · rename_i a b hp
    rw [h.iocb_kept hn hl (by rw [hp]; exact List.mem_singleton_self b)]
  · rename_i b errno hp
    rw [h.iocb_kept hn hl (by rw [hp]; exact List.mem_singleton_self b)]
  · rfl

/-- A step of the submission moves what it has taken and the resources together. -/
theorem taken_step {q : SubmitPc} (h : Owned cfg s) (hmat : Matched s)
    (hpc : s.pc t = .submit q) (hm : SubmitMoves cfg s t ans q s')
    (hnot : s'.pc t ≠ .idle .returned) :
    s'.amount - s.amount = s'.taken cfg t - s.taken cfg t := by
  have hout : ∀ d, (s.pc t).holds s.events = [d] → d ∈ s.outstanding := fun d hd =>
    h.custody.subset (some t) d (by rw [State.holders, hd]; exact List.mem_singleton_self d)
  have hgoto : ∀ (s : State Tid) p, (s.goto t p).amount = s.amount := fun _ _ => rfl
  cases hm with
  | interrupted a _ _ | noSpace a _ | rejected a b _ =>
    rw [hgoto]
    simp [State.taken, hpc, State.goto]
  | acquired a hsem _ hpos =>
    rw [hgoto, amount_acquire hsem hpos]
    simp [State.taken, hpc, State.goto]
  | unlimited a hsem =>
    have hperm : permit cfg = 0 := by
      funext x
      cases x <;> simp [permit, hsem]
    rw [hgoto]
    simp [State.taken, hpc, State.goto, hperm]
  | gotIOCB a b pool hg =>
    rw [hgoto, amount_handOut h hg]
    simp [State.taken, hpc, State.goto]
  | prepared a b =>
    have hset : ∀ (s : State Tid) m, (s.setIocb b m).amount = s.amount := fun _ _ => rfl
    rw [hgoto, hset, amount_new]
    simp [State.taken, hpc, State.goto, State.setIocb, Submission.prep]
  | accepted a b _ _ => exact absurd (Function.update_self _ _ _) hnot
  | refDeleted b errno =>
    have hb : b ∈ s.loaded (some t) := by
      rw [State.loaded, State.view, hpc]
      exact List.mem_singleton_self b
    rw [hgoto, amount_deleteRef fun r hr => hmat.live (x := .iocb b) ⟨⟨_, hb⟩, hr⟩]
    simp [State.taken, hpc, State.goto]
  | undone b errno =>
    rw [hgoto, amount_putBack (hout b (by rw [hpc]; rfl))]
    simp [State.taken, hpc, State.goto]

/-! ### What a run takes -/

/-- A thread outside all methods stays there until it makes a call. -/
theorem idle_stays {o : Outcome} (hpc : s.pc t = .idle o)
    (hcalls : ∀ m, .call t m ∉ ls) (hr : Run (next cfg) Orderly s ls s') :
    s'.pc t = .idle o := by
  induction hr with
  | nil => exact hpc
  | @cons s l s₁ ls s' _ hn _ ih =>
    refine ih ?_ fun m hm => hcalls m (List.mem_cons_of_mem _ hm)
    by_cases hl : l.tid? = some t
    · cases l with
      | call u m =>
        obtain rfl := Option.some.inj hl
        exact absurd List.mem_cons_self (hcalls m)
      | step u ans =>
        obtain rfl := Option.some.inj hl
        simp [next, hpc, threadStep] at hn
      | _ => cases hl
    · rw [next_pc_of_ne hn hl, hpc]

/-- The thread is in a submission, or has come out of one with an exception. -/
def Pc.undecided : Pc → Bool
  | .submit _ | .idle (.threw _) => true
  | _ => false

/-- **What the steps of a failing submission change is what it has taken**, over
any run in which the other threads and the kernel do what they like. -/
theorem net_eq_taken {e : Failure} (hown : Owned cfg s) (hmat : Matched s)
    (hpc : (s.pc t).undecided = true) (hcalls : ∀ m, .call t m ∉ ls)
    (hr : Run (next cfg) Orderly s ls s') (hend : s'.pc t = .idle (.threw e)) (x : Resource) :
    net (next cfg) (Label.isOf t) (·.amount x) s ls = s'.taken cfg t x - s.taken cfg t x := by
  induction hr with
  | nil => simp [net]
  | @cons s l s₁ ls s' hP hn hr ih =>
    have hcalls' : ∀ m, .call t m ∉ ls := fun m hm => hcalls m (List.mem_cons_of_mem _ hm)
    have hown' := hown.step hP.1 hP.2 hn
    have hmat' := hmat.step hown hP.1 hP.2 hn
    simp only [net, hn]
    by_cases hl : l.tid? = some t
    · cases l with
      | call u m =>
        obtain rfl := Option.some.inj hl
        exact absurd List.mem_cons_self (hcalls m)
      | step u ans =>
        obtain rfl := Option.some.inj hl
        cases next_moves hn with
        | submit _ _ q _ hq hm =>
          have hnot : s₁.pc u ≠ .idle .returned := by
            intro hret
            rw [idle_stays hret hcalls' hr] at hend
            cases hend
          have hstep := congrFun (taken_step hown hmat hq hm hnot) x
          have hund : (s₁.pc u).undecided = true := by
            cases hm with
            | accepted a b _ _ => exact absurd (Function.update_self _ _ _) hnot
            | _ => simp [State.goto, Pc.undecided]
          rw [ih hown' hmat' hund hcalls' hend, if_pos (by simp [Label.isOf, Label.tid?])]
          simp only [Pi.sub_apply] at hstep
          omega
        | blocked _ _ q _ hq _ | poll _ _ q _ hq _ | close _ _ q _ hq _ =>
          rw [hq] at hpc
          cases hpc
      | _ => cases hl
    · have hstay : s₁.pc t = s.pc t := next_pc_of_ne hn hl
      rw [ih hown' hmat' (hstay ▸ hpc) hcalls' hend, taken_other hown hn hl,
        if_neg (by simpa [Label.isOf] using hl), zero_add]

/-! ### Which submissions pay -/

/-- The submission is behind the acquisition of its permit. -/
def Pc.paid : Pc → Bool
  | .submit (.acquire _) => false
  | .submit _ | .idle (.threw .noSpace) | .idle (.threw (.submitting _)) => true
  | _ => false

omit [DecidableEq Tid] in
theorem taken_of_threw {e : Failure} (hpc : s.pc t = .idle (.threw e)) :
    s.taken cfg t = if (s.pc t).paid then permit cfg else 0 := by
  unfold State.taken
  rw [hpc]
  cases e <;> rfl

theorem paid_stays {e : Failure} (hpc : (s.pc t).paid = true) (hcalls : ∀ m, .call t m ∉ ls)
    (hr : Run (next cfg) Orderly s ls s') (hend : s'.pc t = .idle (.threw e)) :
    (s'.pc t).paid = true := by
  induction hr with
  | nil => exact hpc
  | @cons s l s₁ ls s' _ hn hr ih =>
    have hcalls' : ∀ m, .call t m ∉ ls := fun m hm => hcalls m (List.mem_cons_of_mem _ hm)
    refine ih ?_ hcalls' hend
    by_cases hl : l.tid? = some t
    · cases l with
      | call u m =>
        obtain rfl := Option.some.inj hl
        exact absurd List.mem_cons_self (hcalls m)
      | step u ans =>
        obtain rfl := Option.some.inj hl
        cases next_moves hn with
        | submit _ _ q _ hq hm =>
          rw [hq] at hpc
          cases hm with
          | interrupted a _ _ | acquired a _ _ _ | unlimited a _ => cases hpc
          | accepted a b _ _ =>
            rw [idle_stays (Function.update_self _ _ _) hcalls' hr] at hend
            cases hend
          | _ => simp [State.goto, Pc.paid]
        | blocked _ _ q _ hq _ | poll _ _ q _ hq _ | close _ _ q _ hq _ =>
          rw [hq] at hpc
          cases hpc
      | _ => cases hl
    · rw [next_pc_of_ne hn hl]
      exact hpc

/-- The answer to the first step of thread `t` in a run: the one that ends the
wait for a permit. -/
def firstAnswer (t : Tid) : List (Label Tid) → Option Answer
  | [] => none
  | .step u ans :: ls => if u = t then some ans else firstAnswer t ls
  | _ :: ls => firstAnswer t ls

theorem paid_iff {a : Submission} {e : Failure} (hsem : cfg.useSemaphore = true)
    (hpc : s.pc t = .submit (.acquire a)) (hcalls : ∀ m, .call t m ∉ ls)
    (hr : Run (next cfg) Orderly s ls s') (hend : s'.pc t = .idle (.threw e)) :
    (s'.pc t).paid = true ↔
      ¬∃ ans, firstAnswer t ls = some ans ∧ ans.interrupted = true := by
  induction hr with
  | nil =>
    rw [hpc] at hend
    cases hend
  | @cons s l s₁ ls s' _ hn hr ih =>
    have hcalls' : ∀ m, .call t m ∉ ls := fun m hm => hcalls m (List.mem_cons_of_mem _ hm)
    by_cases hl : l.tid? = some t
    · cases l with
      | call u m =>
        obtain rfl := Option.some.inj hl
        exact absurd List.mem_cons_self (hcalls m)
      | step u ans =>
        obtain rfl := Option.some.inj hl
        simp only [firstAnswer, if_true, Option.some.injEq, exists_eq_left']
        cases next_moves hn with
        | submit _ _ q _ hq hm =>
          obtain rfl := Pc.submit.inj (hpc.symm.trans hq)
          cases hm with
          | interrupted _ _ hint =>
            rw [idle_stays (Function.update_self _ _ _) hcalls' hr]
            simp [Pc.paid, hint]
          | acquired _ _ hint _ =>
            have hpaid := paid_stays (t := u) (by simp [State.goto, Pc.paid]) hcalls' hr hend
            simp [hpaid, hint]
          | unlimited _ hno =>
            rw [hsem] at hno
            cases hno
        | blocked _ _ q _ hq _ | poll _ _ q _ hq _ | close _ _ q _ hq _ =>
          rw [hq] at hpc
          cases hpc
      | _ => cases hl
    · have hskip : firstAnswer t (l :: ls) = firstAnswer t ls := by
        cases l with
        | step u ans => exact if_neg fun he => hl (congrArg some he)
        | _ => rfl
      rw [hskip]
      exact ih ((next_pc_of_ne hn hl).trans hpc) hcalls' hend

/-- **A failed submission leaves no trace if and only if it fails before it has
acquired a permit**, or there is no semaphore: the context was closed when it
was called, or the wait for the permit was interrupted. -/
theorem failed_submission_leaves_no_trace_iff {a : Submission} {e : Failure}
    (hq : 0 < cfg.queueSize) (hreach : Reaches (next cfg) Orderly (.initial cfg env) s)
    (hcalls : ∀ m, .call t m ∉ ls)
    (hr : Run (next cfg) Orderly s (.call t (.submit a) :: ls) s')
    (hend : s'.pc t = .idle (.threw e)) :
    (∀ x, net (next cfg) (Label.isOf t) (·.amount x) s (.call t (.submit a) :: ls) = 0) ↔
      cfg.useSemaphore = false ∨ s.closed = true ∨
        ∃ ans, firstAnswer t ls = some ans ∧ ans.interrupted = true := by
  obtain ⟨hown, hmat⟩ := Matched.of_reaches hq hreach
  cases hr with
  | @cons _ _ s₁ _ _ hP hn hrest =>
    have hown₁ := hown.step hP.1 hP.2 hn
    have hmat₁ := hmat.step hown hP.1 hP.2 hn
    -- the call itself takes nothing
    have hcall : s₁.amount = s.amount ∧ (s₁.pc t).undecided = true ∧ s₁.taken cfg t = 0 := by
      cases next_moves hn with
      | call _ _ _ _ _ hm => cases hm <;> simp [State.goto, Pc.undecided, State.taken] <;> rfl
    obtain ⟨hamount, hund, htaken₁⟩ := hcall
    have hnet : ∀ x, net (next cfg) (Label.isOf t) (·.amount x) s (.call t (.submit a) :: ls)
        = s'.taken cfg t x := by
      intro x
      have hrun := net_eq_taken hown₁ hmat₁ hund hcalls hrest hend x
      simp only [net, hn, Label.isOf, Label.tid?, decide_true, if_true, hamount, sub_self, zero_add]
      simpa only [htaken₁, Pi.zero_apply, sub_zero] using hrun
    -- nothing is taken in the end but possibly the permit
    have hzero : (∀ x, s'.taken cfg t x = 0) ↔
        cfg.useSemaphore = false ∨ (s'.pc t).paid = false := by
      rw [taken_of_threw hend]
      constructor
      · intro h
        by_contra hno
        simp only [not_or, Bool.not_eq_false] at hno
        have hperm := h .permits
        simp [hno.2, permit, hno.1] at hperm
      · rintro (hsem | hpaid) x
        · split
          · cases x <;> simp [permit, hsem]
          · rfl
        · simp [hpaid]
    simp only [hnet, hzero]
    cases next_moves hn with
    | call _ _ _ _ _ hm =>
      cases hm with
      | refused _ hcl =>
        have hfinal := idle_stays (Function.update_self _ _ _) hcalls hrest
        simp [hfinal, Pc.paid, hcl]
      | submit _ hcl =>
        by_cases hsem : cfg.useSemaphore = true
        · have hiff := paid_iff hsem (Function.update_self _ _ _) hcalls hrest hend
          have hpaid : (s'.pc t).paid = false ↔
              ∃ ans, firstAnswer t ls = some ans ∧ ans.interrupted = true := by
            rw [← Bool.not_eq_true, hiff, not_not]
          simp [hsem, hcl, hpaid]
        · simp [hsem]

/-- A submission is interrupted while another thread has the only permit. -/
theorem interrupted_submission_leaves_no_trace :
    net (next ⟨1, true, true⟩) (Label.isOf false) (·.amount .permits)
      (.sample ⟨1, true, true⟩ : State Bool)
      (.call false (.submit ⟨.pread, 5, 0, 512, some 2⟩) ::
        (submits true ⟨.pwrite, 5, 0, 512, some 1⟩ ++ [.step false { interrupted := true }]))
      = 0 := by
  obtain ⟨s, hr, hend⟩ := exists_run_of_exec (next ⟨1, true, true⟩) Orderly
    (.sample ⟨1, true, true⟩)
    (.call false (.submit ⟨.pread, 5, 0, 512, some 2⟩) ::
      (submits true ⟨.pwrite, 5, 0, 512, some 1⟩ ++ [.step false { interrupted := true }]))
    (fun s => s.pc false = .idle (.threw .interrupted)) (by decide)
  exact (failed_submission_leaves_no_trace_iff (by decide) (.refl _) (by simp [submits]) hr
    hend).mpr (.inr (.inr ⟨_, rfl, rfl⟩)) .permits

/-- One write that `io_submit` rejects: the only permit of the context is gone,
with nothing outstanding. -/
theorem rejected_submission_keeps_permit :
    ∃ s : State Bool, Run (next ⟨1, true, true⟩) Orderly (.sample ⟨1, true, true⟩)
      [.call false (.submit ⟨.pwrite, 5, 0, 512, some 1⟩), .step false {}, .step false {},
        .step false {}, .step false { ioSubmit := -9 }, .step false {}, .step false {}] s ∧
      s.pc false = .idle (.threw (.submitting 9)) ∧ s.outstanding = ∅ ∧ s.ioSpace = 0 ∧
      net (next ⟨1, true, true⟩) (Label.isOf false) (·.amount .permits)
        (.sample ⟨1, true, true⟩ : State Bool)
        [.call false (.submit ⟨.pwrite, 5, 0, 512, some 1⟩), .step false {}, .step false {},
          .step false {}, .step false { ioSubmit := -9 }, .step false {}, .step false {}] = -1 := by
  obtain ⟨s, hr, hpc, hout, hspace⟩ := exists_run_of_exec (next ⟨1, true, true⟩) Orderly
    (.sample ⟨1, true, true⟩)
    [.call false (.submit ⟨.pwrite, 5, 0, 512, some 1⟩), .step false {}, .step false {},
      .step false {}, .step false { ioSubmit := -9 }, .step false {}, .step false {}]
    (fun s : State Bool => s.pc false = .idle (.threw (.submitting 9)) ∧ s.outstanding = ∅ ∧
      s.ioSpace = 0) (by decide)
  exact ⟨s, hr, hpc, hout, hspace, by decide⟩

end ArtemisNative
