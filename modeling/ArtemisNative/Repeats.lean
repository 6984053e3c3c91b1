/-
ArtemisNative/Repeats.lean

A kernel that delivers events again, and the one poller of a context.

`blockedPoll` clears `data` of the iocb of an event it handles, "to detect invalid elements
on the buffer", and takes an event whose iocb has `NULL` there for a repetition.  Between
the two the iocb is in the pool, and a submission may prepare it again; the repetition is
then handled as the event of that submission.  `Recognised` is the condition that this does
not happen: whenever the poller looks into the iocb of an event it has handled, the iocb has
not been prepared since.

`Plain` is what holds in this setting without regard to repetitions: nobody is in `close`,
requests are numbered apart, and iocbs that have been prepared are not on the stop file.
-/
import ArtemisNative.Delivery

namespace ArtemisNative

open Transition

variable {Tid : Type} [DecidableEq Tid] {cfg : Config} {x x' : State Tid} {t p : Tid}
variable {ans : Answer} {l : Label Tid} {o b : ℕ} {env : Process}

/-! ### The setting and the condition -/

/-- Nobody closes the context or the stop file. -/
def Open : Label Tid → Prop
  | .call _ .close | .closeDumbHandlers => False
  | _ => True

/-- Threads submit with callbacks, and thread `p` calls `poll()`. -/
def Repeats (p : Tid) (l : Label Tid) : Prop :=
  OnePoller p l ∧ BlockedOnly l ∧ Open l ∧ l.Submits (·.callback ≠ none)

def Obs.putBack? : Obs → Option ℕ
  | .putBack o => some o
  | _ => none

/-- The requests whose events the poller has handled. -/
def State.handled (x : State Tid) : List ℕ := x.log.filterMap Obs.putBack?

omit [DecidableEq Tid] in
theorem State.handled_append {obs : List Obs} (hlog : x'.log = x.log ++ obs) :
    x'.handled = x.handled ++ obs.filterMap Obs.putBack? := by
  rw [State.handled, hlog, List.filterMap_append, State.handled]

/-- If the event at hand has been handled before, its iocb has not been prepared since. -/
def State.Marked (x : State Tid) (f : Frame) : Prop :=
  (x.events f.i).op ∈ x.handled → (x.iocb (x.events f.i).obj).data = .null

/-- Submissions are on other descriptors than the stop file, and the iocb of a repeated
event is marked where the poller looks into it. -/
def Recognised (x : State Tid) : Label Tid → Prop
  | .call _ (.submit a) => a.fd ≠ x.dumbWriteHandler
  | .step t _ =>
    match x.pc t with
    | .blocked (.event f .onError) => (x.events f.i).res < 0 → x.Marked f
    | .blocked (.event f .take) => x.Marked f
    | _ => True
  | _ => True

omit [DecidableEq Tid] in
theorem Recognised.onError {f : Frame} (h : Recognised x (.step t ans))
    (hpc : x.pc t = .blocked (.event f .onError)) (hres : (x.events f.i).res < 0) :
    x.Marked f := by
  rw [Recognised, hpc] at h
  exact h hres

omit [DecidableEq Tid] in
theorem Recognised.take {f : Frame} (h : Recognised x (.step t ans))
    (hpc : x.pc t = .blocked (.event f .take)) : x.Marked f := by
  rw [Recognised, hpc] at h
  exact h

/-! ### What holds without regard to repetitions -/

/-- The thread is outside `close` and `poll(callbacks, ..)`, and in `blockedPoll` only if
it is thread `p`. -/
def Pc.Calm (p t : Tid) : Pc → Prop
  | .idle _ | .submit _ => True
  | .blocked _ => t = p
  | .poll _ | .close _ => False

/-- The descriptor in iocb `b` is not the one of the stop file. -/
def State.Elsewhere (x : State Tid) (b : ℕ) : Prop := (x.iocb b).aio_fildes ≠ x.dumbWriteHandler

/-- The numbers of the requests in flight and of those that have been completed. -/
def State.numbers (x : State Tid) : List ℕ := x.inflight.map (·.op) ++ x.delivered.map (·.op)

structure Plain (p : Tid) (x : State Tid) : Prop where
  calm : ∀ t, (x.pc t).Calm p t
  submitted : Submitted (fun a => a.callback ≠ none ∧ a.fd ≠ x.dumbWriteHandler) x
  user : ∀ fd, .stop fd ∉ x.accepted
  /-- requests are numbered as they are accepted, and completed once -/
  numbered : x.numbers.Nodup
  below : ∀ o ∈ x.numbers, o < x.accepted.length
  prepared : ∀ t a b, x.pc t = .submit (.ioSubmit a b) → x.Elsewhere b
  inflight : ∀ r ∈ x.inflight, x.Elsewhere r.obj
  delivered : ∀ e ∈ x.delivered, x.Elsewhere e.obj

theorem Pc.Calm.step (h : ∀ t, (x.pc t).Calm p t) (hl : Repeats p l)
    (hn : next cfg x l = some x') (u : Tid) : (x'.pc u).Calm p u := by
  have hgo : ∀ {t : Tid} {q : Pc}, x'.pc = Function.update x.pc t q → q.Calm p t →
      (x'.pc u).Calm p u := by
    intro t q hpc hq
    rcases pc_cases hpc u with ⟨rfl, hu⟩ | ⟨-, hu⟩ <;> rw [hu]
    · exact hq
    · exact h u
  cases next_moves hn with
  | call t o m _ hpc hm =>
    cases hm with
    | poll _ => exact hgo rfl hl.1
    | pollInto _ _ _ => exact hl.2.1.elim
    | close _ | closeAgain _ => exact hl.2.2.1.elim
    | _ => exact hgo rfl trivial
  | submit t ans q _ hpc hm => cases hm <;> exact hgo rfl trivial
  | blocked t ans q _ hpc hm =>
    have ht := h t
    rw [hpc] at ht
    cases hm with
    | unlocked o => exact hgo rfl trivial
    | readInterrupted f _ => exact h u
    | event f st _ hm => cases hm <;> exact hgo rfl ht
    | _ => exact hgo rfl ht
  | poll t ans q _ hpc hm =>
    have ht := h t
    rw [hpc] at ht
    exact ht.elim
  | close t ans q _ hpc hm =>
    have ht := h t
    rw [hpc] at ht
    exact ht.elim
  | complete k res r hr _ => exact h u
  | redeliver k ev _ => exact h u
  | setForceSyscall value => exact h u
  | closeDumbHandlers => exact hl.2.2.1.elim

/-- A step numbers at most one request, with the next number. -/
theorem next_numbers (hcalm : ∀ t, (x.pc t).Calm p t) (hn : next cfg x l = some x') :
    (x'.accepted = x.accepted ∧ x'.numbers.Perm x.numbers) ∨
    ∃ a, x'.accepted = x.accepted ++ [.user a] ∧
      x'.numbers.Perm (x.accepted.length :: x.numbers) := by
  have hsame : ∀ {y : State Tid}, y.accepted = x.accepted → y.inflight = x.inflight →
      y.delivered = x.delivered → (y.accepted = x.accepted ∧ y.numbers.Perm x.numbers) := by
    intro y hacc hi hd
    refine ⟨hacc, .of_eq ?_⟩
    rw [State.numbers, hi, hd, State.numbers]
  cases next_moves hn with
  | call t o m _ hpc hm => cases hm <;> exact .inl (hsame rfl rfl rfl)
  | submit t ans q _ hpc hm =>
    cases hm with
    | accepted a b _ _ =>
      refine .inr ⟨a, rfl, ?_⟩
      simp only [State.numbers, State.accept, State.goto, List.map_append, List.map_cons,
        List.map_nil, List.append_assoc]
      exact List.perm_middle
    | _ => exact .inl (hsame rfl rfl rfl)
  | blocked t ans q _ hpc hm =>
    cases hm with
    | event f st _ hm => cases hm <;> exact .inl (hsame rfl rfl rfl)
    | _ => exact .inl (hsame rfl rfl rfl)
  | poll t ans q _ hpc hm => cases hm <;> exact .inl (hsame rfl rfl rfl)
  | close t ans q _ hpc hm =>
    have ht := hcalm t
    rw [hpc] at ht
    exact ht.elim
  | complete k res r hr _ =>
    obtain ⟨hk, rfl⟩ := List.getElem?_eq_some_iff.mp hr
    refine .inl ⟨rfl, ?_⟩
    have hperm := (List.getElem_cons_eraseIdx_perm hk).map (·.op)
    simp only [State.numbers, State.complete, List.map_append, List.map_cons, List.map_nil,
      ← List.append_assoc] at hperm ⊢
    refine List.perm_append_comm.trans ?_
    exact hperm.append_right (x.delivered.map (·.op))
  | redeliver k ev _ => exact .inl (hsame rfl rfl rfl)
  | setForceSyscall value => exact .inl (hsame rfl rfl rfl)
  | closeDumbHandlers => exact .inl (hsame rfl rfl rfl)

omit [DecidableEq Tid] in
theorem State.Elsewhere.keep {b : ℕ} (h : x.Elsewhere b) (hi : x'.iocb = x.iocb)
    (hh : x'.dumbWriteHandler = x.dumbWriteHandler) : x'.Elsewhere b := by
  rw [State.Elsewhere, hi, hh]
  exact h

omit [DecidableEq Tid] in
/-- A submission prepares its iocb on its own descriptor. -/
theorem State.Elsewhere.of_prepared {b : ℕ} {v : Iocb} (hi : x'.iocb = Function.update x.iocb b v)
    (hh : x'.dumbWriteHandler = x.dumbWriteHandler)
    (hv : v.aio_fildes ≠ x.dumbWriteHandler) : x'.Elsewhere b := by
  rw [State.Elsewhere, hi, hh, Function.update_self]
  exact hv

omit [DecidableEq Tid] in
theorem State.Elsewhere.prepared {b c : ℕ} {v : Iocb} (h : x.Elsewhere c)
    (hi : x'.iocb = Function.update x.iocb b v)
    (hh : x'.dumbWriteHandler = x.dumbWriteHandler)
    (hv : c = b → v.aio_fildes ≠ x.dumbWriteHandler) : x'.Elsewhere c := by
  by_cases hcb : c = b
  · subst hcb
    exact .of_prepared hi hh (hv rfl)
  · rw [State.Elsewhere, hi, hh, Function.update_of_ne hcb]
    exact h

omit [DecidableEq Tid] in
/-- The poller writes `data` only. -/
theorem State.Elsewhere.data {b c : ℕ} {d : IocbData} (h : x.Elsewhere c)
    (hi : x'.iocb = Function.update x.iocb b { x.iocb b with data := d })
    (hh : x'.dumbWriteHandler = x.dumbWriteHandler) : x'.Elsewhere c :=
  h.prepared hi hh (by rintro rfl; exact h)

/-- The iocbs of requests are prepared on descriptors of the users. -/
theorem Plain.elsewhere (h : Plain p x) (hl : Repeats p l) (hn : next cfg x l = some x') :
    (∀ t a b, x'.pc t = .submit (.ioSubmit a b) → x'.Elsewhere b) ∧
    (∀ r ∈ x'.inflight, x'.Elsewhere r.obj) ∧ ∀ e ∈ x'.delivered, x'.Elsewhere e.obj := by
  have hclosed : l ≠ .closeDumbHandlers := by
    rintro rfl
    exact hl.2.2.1
  have hhandler := next_handler hn hclosed
  -- a thread goes on, and what it writes into an iocb is right
  have hgo : ∀ {t : Tid} {q : Pc}, x'.pc = Function.update x.pc t q →
      (∀ b, x.Elsewhere b → x'.Elsewhere b) →
      (∀ a b, q = .submit (.ioSubmit a b) → x'.Elsewhere b) →
      x'.inflight = x.inflight → x'.delivered = x.delivered →
      (∀ t a b, x'.pc t = .submit (.ioSubmit a b) → x'.Elsewhere b) ∧
      (∀ r ∈ x'.inflight, x'.Elsewhere r.obj) ∧ ∀ e ∈ x'.delivered, x'.Elsewhere e.obj := by
    intro t q hpc hkeep hq hi hd
    refine ⟨fun u a b hu => ?_, fun r hr => ?_, fun e he => ?_⟩
    · rcases pc_cases hpc u with ⟨-, he⟩ | ⟨-, he⟩ <;> rw [he] at hu
      · exact hq a b hu
      · exact hkeep b (h.prepared u a b hu)
    · exact hkeep _ (h.inflight r (hi ▸ hr))
    · exact hkeep _ (h.delivered e (hd ▸ he))
  have hsame : x'.iocb = x.iocb → ∀ b, x.Elsewhere b → x'.Elsewhere b := fun hi _ hb =>
    hb.keep hi hhandler
  cases next_moves hn with
  | call t o m _ hpc hm => cases hm <;> exact hgo rfl (hsame rfl) nofun rfl rfl
  | submit t ans q _ hpc hm =>
    cases hm with
    | prepared a b =>
      have ha := (h.submitted.underway t a (by rw [hpc]; rfl)).2
      refine hgo rfl (fun c hc => hc.prepared rfl hhandler fun _ => ha) (fun a' b' hq => ?_) rfl rfl
      obtain ⟨-, rfl⟩ := SubmitPc.ioSubmit.inj (Pc.submit.inj hq)
      exact State.Elsewhere.of_prepared rfl hhandler ha
    | accepted a b _ _ =>
      refine ⟨fun u a' b' hu => ?_, fun r hr => ?_, fun e he => h.delivered e he⟩
      · have hpc' : ((x.accept b (.user a)).goto t (.idle .returned)).pc =
            Function.update x.pc t (.idle .returned) := rfl
        rcases pc_cases hpc' u with ⟨-, he⟩ | ⟨-, he⟩ <;> rw [he] at hu
        · cases hu
        · exact h.prepared u a' b' hu
      · rcases List.mem_append.mp hr with hr | hr
        · exact h.inflight r hr
        · rw [List.mem_singleton.mp hr]
          exact h.prepared t a b hpc
    | _ => exact hgo rfl (hsame rfl) nofun rfl rfl
  | blocked t ans q _ hpc hm =>
    cases hm with
    | readInterrupted f _ => exact ⟨h.prepared, h.inflight, h.delivered⟩
    | event f st _ hm =>
      cases hm with
      | takenNull _ | taken _ => exact hgo rfl (fun _ hc => hc.data rfl hhandler) nofun rfl rfl
      | _ => exact hgo rfl (hsame rfl) nofun rfl rfl
    | _ => exact hgo rfl (hsame rfl) nofun rfl rfl
  | poll t ans q _ hpc hm => cases hm <;> exact hgo rfl (hsame rfl) nofun rfl rfl
  | close t ans q _ hpc hm =>
    have ht := h.calm t
    rw [hpc] at ht
    exact ht.elim
  | complete k res r hr _ =>
    have hmem := List.mem_of_getElem? hr
    refine ⟨h.prepared, fun r' hr' => ?_, fun e he => ?_⟩
    · exact h.inflight r' (List.eraseIdx_subset hr')
    · rcases List.mem_append.mp he with he | he
      · exact h.delivered e he
      · rw [List.mem_singleton.mp he]
        exact h.inflight r hmem
  | redeliver k ev _ => exact ⟨h.prepared, h.inflight, h.delivered⟩
  | setForceSyscall value => exact ⟨h.prepared, h.inflight, h.delivered⟩
  | closeDumbHandlers => exact absurd rfl hclosed

theorem Plain.step (h : Plain p x) (hl : Repeats p l)
    (hfd : l.Submits (·.fd ≠ x.dumbWriteHandler)) (hn : next cfg x l = some x') : Plain p x' := by
  have hhandler : x'.dumbWriteHandler = x.dumbWriteHandler :=
    next_handler hn (by rintro rfl; exact hl.2.2.1)
  obtain ⟨hprep, hinfl, hdel⟩ := h.elsewhere hl hn
  have hboth : l.Submits (fun a => a.callback ≠ none ∧ a.fd ≠ x.dumbWriteHandler) := by
    have hcb := hl.2.2.2
    cases l with
    | call t m =>
      cases m with
      | submit a => exact ⟨hcb, hfd⟩
      | _ => trivial
    | _ => trivial
  have hcount := next_numbers h.calm hn
  refine ⟨Pc.Calm.step h.calm hl hn, ?_, fun fd hmem => ?_, ?_, ?_, hprep, hinfl, hdel⟩
  · rw [hhandler]
    exact h.submitted.step hboth hn
  · rcases hcount with ⟨hacc, -⟩ | ⟨a, hacc, -⟩ <;> rw [hacc] at hmem
    · exact h.user fd hmem
    · rcases List.mem_append.mp hmem with hmem | hmem
      · exact h.user fd hmem
      · cases List.mem_singleton.mp hmem
  · rcases hcount with ⟨-, hperm⟩ | ⟨a, -, hperm⟩
    · exact hperm.nodup_iff.mpr h.numbered
    · refine hperm.nodup_iff.mpr (List.nodup_cons.mpr ⟨fun hmem => ?_, h.numbered⟩)
      exact lt_irrefl _ (h.below _ hmem)
  · intro o ho
    rcases hcount with ⟨hacc, hperm⟩ | ⟨a, hacc, hperm⟩ <;> rw [hacc]
    · exact h.below o (hperm.mem_iff.mp ho)
    · rw [List.length_append, List.length_singleton]
      rcases List.mem_cons.mp (hperm.mem_iff.mp ho) with rfl | ho
      · exact Nat.lt_succ_self _
      · exact Nat.lt_succ_of_lt (h.below o ho)

omit [DecidableEq Tid] in
theorem Plain.initial (env : Process) : Plain p (.initial cfg env : State Tid) where
  calm := fun _ => trivial
  submitted := .initial _ env
  user := nofun
  numbered := List.nodup_nil
  below := nofun
  prepared := nofun
  inflight := nofun
  delivered := nofun

omit [DecidableEq Tid] in
/-- A request in flight has not been completed before. -/
theorem Plain.not_delivered {k : ℕ} {r : Request} (h : Plain p x) (hr : x.inflight[k]? = some r) :
    r.op ∉ x.delivered.map (·.op) := by
  intro hmem
  have hdisj := (List.nodup_append.mp h.numbered).2.2
  exact hdisj _ (List.mem_map_of_mem (List.mem_of_getElem? hr)) _ hmem rfl

omit [DecidableEq Tid] in
/-- What has been delivered was submitted. -/
theorem Plain.accepted {e : IoEvent} (h : Plain p x) (he : e ∈ x.delivered) :
    ∃ a, x.accepted[e.op]? = some (.user a) := by
  have hlt := h.below e.op (List.mem_append_right _ (List.mem_map_of_mem he))
  cases hg : x.accepted[e.op] with
  | user a => exact ⟨a, by rw [List.getElem?_eq_getElem hlt, hg]⟩
  | stop fd => exact absurd (hg ▸ List.getElem_mem hlt) (h.user fd)

end ArtemisNative
