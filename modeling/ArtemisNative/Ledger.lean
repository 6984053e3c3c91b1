/-
ArtemisNative/Ledger.lean

Which global references are kept, and where.

`submitWrite` and `submitRead` make a global reference to the callback and leave it
in `data` of an iocb.  It is deleted at three places: where `io_submit` has rejected
the iocb, at the end of an event in `blockedPoll`, and in `poll(callbacks, ..)`, which
leaves the deleted reference behind in the pooled iocb.

`Matched` says that what is kept is live.  `Ledger` is the converse: what is live
and was made here is kept, by an iocb whose contents still matter or by the local
of a poller.  Every step keeps it, up to the place where `deleteContext` begins,
as long as no event is taken for the sentinel (`Ledger.step`): `blockedPoll` gives up
the rest of the batch there, with all its references.
-/
import ArtemisNative.Delivery

namespace ArtemisNative

open Transition

variable {Tid : Type} [DecidableEq Tid] {cfg : Config} {s s' : State Tid} {t p : Tid} {q : Pc}
variable {ans : Answer} {l : Label Tid} {o r b first : ℕ} {a : Submission} {env : Process}

/-! ### The discipline -/

/-- `deleteContext` does not begin. -/
def BeforeDelete (s : State Tid) : Label Tid → Prop
  | .step t _ => s.pc t ≠ .close .getIOCB
  | _ => True

instance (s : State Tid) : DecidablePred (BeforeDelete s)
  | .step t _ => inferInstanceAs (Decidable (s.pc t ≠ .close .getIOCB))
  | .call _ _ | .complete _ _ | .redeliver _ | .setForceSyscall _ | .closeDumbHandlers =>
    isTrue trivial

/-- Threads submit on descriptors other than the stop file, thread `p` polls in either
way, with callbacks that return normally and arrays that are long enough, and the
kernel delivers one event per accepted iocb. -/
def Conserves (p : Tid) (s : State Tid) (l : Label Tid) : Prop :=
  (OnePoller p l ∧ DeliversOnce l ∧ BeforeDelete s l) ∧ Smooth l ∧
    l.Submits (·.fd ≠ s.dumbWriteHandler)

instance (p : Tid) (s : State Tid) : DecidablePred (Conserves p s) := fun _ =>
  inferInstanceAs (Decidable ((_ ∧ _ ∧ _) ∧ _ ∧ _))

/-- The thread is inside `deleteContext`, behind `getIOCB`. -/
def Pc.inDelete : Pc → Bool
  | .close .tryAcquire | .close .getIOCB => false
  | .close _ => true
  | _ => false

/-- `deleteContext` has not begun. -/
structure Undeleted (s : State Tid) : Prop where
  outside : ∀ t, (s.pc t).inDelete = false
  accepted : ∀ fd, .stop fd ∉ s.accepted

theorem Undeleted.step (h : Undeleted s) (hl : BeforeDelete s l) (hn : next cfg s l = some s') :
    Undeleted s' := by
  constructor
  · have hgo : ∀ {t : Tid} {q : Pc}, s'.pc = Function.update s.pc t q → q.inDelete = false →
        ∀ u, (s'.pc u).inDelete = false := by
      intro t q hpc hq u
      rcases pc_cases hpc u with ⟨-, hu⟩ | ⟨-, hu⟩ <;> rw [hu]
      · exact hq
      · exact h.outside u
    cases next_moves hn with
    | call t o m _ hpc hm => cases hm <;> exact hgo rfl rfl
    | submit t ans q _ hpc hm => cases hm <;> exact hgo rfl rfl
    | blocked t ans q _ hpc hm =>
      cases hm with
      | readInterrupted f _ => exact h.outside
      | event f st _ hm => cases hm <;> exact hgo rfl rfl
      | _ => exact hgo rfl rfl
    | poll t ans q _ hpc hm => cases hm <;> exact hgo rfl rfl
    | close t ans q _ hpc hm =>
      have hout := h.outside t
      rw [hpc] at hout
      cases hm with
      | timedOut _ _ | drained _ _ _ | unlimited _ => exact hgo rfl rfl
      | noSpace _ | gotIOCB _ _ _ => exact absurd hpc hl
      | _ => cases hout
    | complete k res r hr _ => exact h.outside
    | redeliver k ev _ => exact h.outside
    | setForceSyscall value => exact h.outside
    | closeDumbHandlers => exact h.outside
  · intro fd hfd
    rcases next_accepted hn with hacc | ⟨t, a, b, -, -, hacc⟩ | ⟨t, b, hpc, -⟩
    · exact h.accepted fd (hacc ▸ hfd)
    · rw [hacc] at hfd
      rcases List.mem_append.mp hfd with hfd | hfd
      · exact h.accepted fd hfd
      · cases List.mem_singleton.mp hfd
    · have hout := h.outside t
      rw [hpc] at hout
      cases hout

omit [DecidableEq Tid] in
theorem Undeleted.initial (env : Process) : Undeleted (.initial cfg env : State Tid) where
  outside := fun _ => rfl
  accepted := nofun

omit [DecidableEq Tid] in
theorem Undeleted.upToSentinel (h : Undeleted s) (l : Label Tid) : UpToSentinel s l := by
  cases l with
  | step t ans =>
    intro hpc
    have hout := h.outside t
    rw [hpc] at hout
    cases hout
  | _ => trivial

/-! ### Who keeps a reference -/

/-- The thread keeps the reference `r`: in an iocb whose contents matter to it, or in
its local. -/
def View.Refers (v : View) (iocb : ℕ → Iocb) (r : ℕ) : Prop :=
  (∃ b ∈ v.loaded, (iocb b).data = .ref r) ∨ ∃ o, v.hand = some (o, .ref r)

/-- The reference `r` is kept at a place. -/
def State.Refers (s : State Tid) : Option Tid → ℕ → Prop
  | none, r => ∃ b ∈ s.loaded none, (s.iocb b).data = .ref r
  | some t, r => (s.view t).Refers s.iocb r

omit [DecidableEq Tid] in
theorem State.refers_iff : (∃ q, s.Refers q r) ↔ ∃ x, s.RefAt x r := by
  constructor
  · rintro ⟨q, hq⟩
    cases q with
    | none =>
      obtain ⟨b, hb, hd⟩ := hq
      exact ⟨.iocb b, ⟨none, hb⟩, hd⟩
    | some t =>
      rcases hq with ⟨b, hb, hd⟩ | ho
      · exact ⟨.iocb b, ⟨some t, hb⟩, hd⟩
      · exact ⟨.hand t, ho⟩
  · rintro ⟨x, hx⟩
    cases x with
    | iocb b =>
      obtain ⟨⟨q, hb⟩, hd⟩ := hx
      cases q with
      | none => exact ⟨none, b, hb, hd⟩
      | some t => exact ⟨some t, .inl ⟨b, hb, hd⟩⟩
    | hand t => exact ⟨some t, .inr hx⟩

/-- The references from `first` on are made here: those that are live are kept, and
no other reference is. -/
structure Ledger (first : ℕ) (s : State Tid) : Prop where
  base : first ≤ s.refs.fresh
  own : ∀ q r, s.Refers q r → first ≤ r
  kept : ∀ r, first ≤ r → s.refs.live r ≠ none → ∃ q, s.Refers q r

omit [DecidableEq Tid] in
/-- Iocbs that matter go from one place to another. -/
theorem Ledger.carry (h : Ledger first s) (hrefs : s'.refs = s.refs) (hiocb : s'.iocb = s.iocb)
    (hload : ∀ b, (∃ q, b ∈ s'.loaded q) ↔ ∃ q, b ∈ s.loaded q)
    (hhand : ∀ u, (s'.view u).hand = (s.view u).hand) : Ledger first s' := by
  have hkeep : ∀ r, (∃ q, s'.Refers q r) ↔ ∃ q, s.Refers q r := by
    intro r
    rw [State.refers_iff, State.refers_iff]
    refine exists_congr fun x => ?_
    cases x with
    | iocb b => simp only [State.RefAt, hload, hiocb]
    | hand u => simp only [State.RefAt, hhand]
  refine ⟨hrefs ▸ h.base, fun q r hq => ?_, fun r hr hlive => ?_⟩
  · obtain ⟨q', hq'⟩ := (hkeep r).mp ⟨q, hq⟩
    exact h.own q' r hq'
  · exact (hkeep r).mpr (h.kept r hr (hrefs ▸ hlive))

/-- Thread `t` goes on, and writes no iocb of the others. -/
theorem Ledger.move (h : Ledger first s) (hown : Owned cfg s)
    (hs : s'.transfers = s.transfers) (hpc : s'.pc = Function.update s.pc t q)
    (hiocb : ∀ b, b ∉ (s.pc t).holds s.events → s'.iocb b = s.iocb b)
    (hfresh : s.refs.fresh ≤ s'.refs.fresh)
    (hback : ∀ r, (q.view s.events).Refers s'.iocb r →
      (s.view t).Refers s.iocb r ∨ s.refs.fresh ≤ r)
    (hforth : ∀ r, (s.view t).Refers s.iocb r → s'.refs.live r ≠ none →
      (q.view s.events).Refers s'.iocb r)
    (hlive : ∀ r, s'.refs.live r ≠ none →
      s.refs.live r ≠ none ∨ (q.view s.events).Refers s'.iocb r) : Ledger first s' := by
  have hs' := hs
  simp only [State.transfers, Prod.mk.injEq] at hs'
  obtain ⟨-, hi, hr, he⟩ := hs'
  obtain ⟨ht, hu⟩ := view_update he hpc
  -- the iocbs that matter at another place are not written
  have hsame : ∀ x, x ≠ some t → ∀ b ∈ s.loaded x, s'.iocb b = s.iocb b := by
    intro x hx b hb
    refine hiocb b fun hbt => hx ?_
    exact hown.custody.place_unique (s.loaded_subset_holders x hb) (q := some t) hbt
  have hother : ∀ x, x ≠ some t → ∀ r, s'.Refers x r ↔ s.Refers x r := by
    intro x hx r
    cases x with
    | none =>
      have hload : s'.loaded none = s.loaded none := by simp [State.loaded, State.requests, hi, hr]
      show (∃ b ∈ s'.loaded none, _) ↔ ∃ b ∈ s.loaded none, _
      rw [hload]
      refine exists_congr fun b => and_congr_right fun hb => ?_
      rw [hsame none hx b hb]
    | some u =>
      have hut : u ≠ t := fun he => hx (he ▸ rfl)
      show View.Refers _ _ r ↔ View.Refers _ _ r
      rw [hu u hut]
      refine or_congr_left (exists_congr fun b => and_congr_right fun hb => ?_)
      rw [hsame (some u) hx b hb]
  have hself : ∀ r, s'.Refers (some t) r ↔ (q.view s.events).Refers s'.iocb r := by
    intro r
    show (s'.view t).Refers _ r ↔ _
    rw [ht]
  refine ⟨h.base.trans hfresh, ?_, ?_⟩
  · intro x r hx
    by_cases hxt : x = some t
    · subst hxt
      rcases hback r ((hself r).mp hx) with hold | hnew
      · exact h.own (some t) r hold
      · exact h.base.trans hnew
    · exact h.own x r ((hother x hxt r).mp hx)
  · intro r hfr hl
    rcases hlive r hl with hold | hnew
    · obtain ⟨x, hx⟩ := h.kept r hfr hold
      by_cases hxt : x = some t
      · subst hxt
        exact ⟨some t, (hself r).mpr (hforth r hx hl)⟩
      · exact ⟨x, (hother x hxt r).mpr hx⟩
    · exact ⟨some t, (hself r).mpr hnew⟩

/-- Thread `t` goes on with what it keeps. -/
theorem Ledger.quiet (h : Ledger first s) (hown : Owned cfg s)
    (hs : s'.transfers = s.transfers) (hpc : s'.pc = Function.update s.pc t q)
    (hiocb : s'.iocb = s.iocb) (hrefs : s'.refs = s.refs)
    (hload : (q.view s.events).loaded = (s.view t).loaded)
    (hhand : (q.view s.events).hand = (s.view t).hand) : Ledger first s' := by
  have hsame : ∀ r, (q.view s.events).Refers s'.iocb r ↔ (s.view t).Refers s.iocb r := by
    intro r
    rw [View.Refers, View.Refers, hload, hhand, hiocb]
  exact h.move hown hs hpc (fun b _ => congrFun hiocb b) (hrefs ▸ le_rfl)
    (fun r hr => .inl ((hsame r).mp hr)) (fun r hr _ => (hsame r).mpr hr)
    fun r hr => .inl (hrefs ▸ hr)

/-! ### Every step keeps the ledger -/

namespace GlobalRefs

variable {g : GlobalRefs} {data : IocbData} {callback : Option ℕ}

theorem new_ref (h : (g.new callback).1 = .ref r) : r = g.fresh := by
  cases callback with
  | none => cases h
  | some c => exact (IocbData.ref.inj h).symm

theorem new_fresh_le (g : GlobalRefs) (callback : Option ℕ) :
    g.fresh ≤ (g.new callback).2.fresh := by
  cases callback with
  | none => exact le_rfl
  | some c => exact Nat.le_succ _

/-- What is live after `NewGlobalRef` was so before, or is the new reference. -/
theorem new_live_cases (h : (g.new callback).2.live r ≠ none) :
    g.live r ≠ none ∨ (g.new callback).1 = .ref r := by
  cases callback with
  | none => exact .inl h
  | some c =>
    by_cases hr : r = g.fresh
    · exact .inr (by rw [hr]; rfl)
    · left
      rwa [show (g.new (some c)).2.live r = g.live r from Function.update_of_ne hr _ _] at h

@[simp] theorem delete_fresh : (g.delete data).fresh = g.fresh := by
  cases data <;> rfl

@[simp] theorem delete_self : (g.delete (.ref r)).live r = none := Function.update_self _ _ _

theorem delete_of_ne (h : data ≠ .ref r) : (g.delete data).live r = g.live r := by
  cases data with
  | ref r' => exact Function.update_of_ne (fun he => h (by rw [he])) _ _
  | _ => rfl

theorem delete_live (h : (g.delete data).live r ≠ none) : g.live r ≠ none := by
  by_cases hd : data = .ref r
  · subst hd
    exact absurd delete_self h
  · rwa [delete_of_ne hd] at h

end GlobalRefs

omit [DecidableEq Tid] in
theorem State.mem_loaded_none :
    b ∈ s.loaded none ↔ (∃ x ∈ s.inflight, x.obj = b) ∨ ∃ e ∈ s.ring, e.obj = b := by
  simp [State.loaded, State.requests]

/-- The iocb that thread `t` has prepared goes to the kernel. -/
theorem Ledger.accept (h : Ledger first s) (hv : s.view t = { prepared := some (some a, b) })
    (hq : q.view s.events = {}) : Ledger first ((s.accept b (.user a)).goto t q) := by
  have hpc : ((s.accept b (.user a)).goto t q).pc = Function.update s.pc t q := rfl
  obtain ⟨ht, hu⟩ :=
    view_update (show ((s.accept b (.user a)).goto t q).events = s.events from rfl) hpc
  rw [hq] at ht
  have hnone : ∀ d, d ∈ ((s.accept b (.user a)).goto t q).loaded none ↔
      d ∈ s.loaded none ∨ b = d := by
    intro d
    simp only [State.mem_loaded_none, State.accept, State.goto, List.mem_append,
      List.mem_singleton, or_and_right, exists_or, exists_eq_left]
    exact or_right_comm
  have hself : ∀ d, d ∈ s.loaded (some t) ↔ b = d := by
    intro d
    rw [State.loaded, hv]
    exact List.mem_singleton.trans eq_comm
  refine h.carry rfl rfl (fun d => ⟨?_, ?_⟩) (fun u => ?_)
  · rintro ⟨x, hx⟩
    cases x with
    | none =>
      rcases (hnone d).mp hx with hd | rfl
      · exact ⟨none, hd⟩
      · exact ⟨some t, (hself _).mpr rfl⟩
    | some u =>
      by_cases hut : u = t
      · subst hut
        rw [State.loaded, ht] at hx
        cases hx
      · rw [State.loaded, hu u hut] at hx
        exact ⟨some u, hx⟩
  · rintro ⟨x, hx⟩
    cases x with
    | none => exact ⟨none, (hnone d).mpr (.inl hx)⟩
    | some u =>
      by_cases hut : u = t
      · subst hut
        exact ⟨none, (hnone d).mpr (.inr ((hself d).mp hx))⟩
      · refine ⟨some u, ?_⟩
        rw [State.loaded, hu u hut]
        exact hx
  · by_cases hut : u = t
    · subst hut
      rw [ht, hv]
    · rw [hu u hut]

/-- Thread `t` reads the `k` oldest events. -/
theorem Ledger.read {k : ℕ} (obs : ℕ → Obs) (h : Ledger first s) (hk : k ≤ s.ring.length)
    (hv : s.view t = {}) (hout : ∀ u, u ≠ t → (s.pc u).inBatch = false)
    (hq : ∀ ev, q.view ev = { batch := eventsFrom ev 0 k }) :
    Ledger first ((s.getEvents k obs).goto t q) := by
  have hpc : ((s.getEvents k obs).goto t q).pc = Function.update s.pc t q := rfl
  have ht : ((s.getEvents k obs).goto t q).view t = { batch := s.ring.take k } := by
    rw [State.view, hpc, Function.update_self, hq]
    exact congrArg (fun b => ({ batch := b } : View)) (eventsFrom_getEvents obs hk)
  have hu : ∀ u, u ≠ t → ((s.getEvents k obs).goto t q).view u = s.view u := by
    intro u hut
    rw [State.view, hpc, Function.update_of_ne hut, State.view]
    exact Pc.view_of_not_inBatch _ _ (hout u hut)
  have hself : ∀ d, d ∈ ((s.getEvents k obs).goto t q).loaded (some t) ↔
      ∃ e ∈ s.ring.take k, e.obj = d := by
    intro d
    simp only [State.loaded, ht, View.loaded, Option.map_none, Option.toList_none, List.append_nil,
      List.mem_map]
  have hring : ∀ d, (∃ e ∈ s.ring, e.obj = d) ↔
      (∃ e ∈ s.ring.take k, e.obj = d) ∨ ∃ e ∈ s.ring.drop k, e.obj = d := by
    intro d
    conv_lhs => rw [← List.take_append_drop k s.ring]
    simp only [List.mem_append, or_and_right, exists_or]
  have hnone : ∀ d, d ∈ ((s.getEvents k obs).goto t q).loaded none ↔
      (∃ x ∈ s.inflight, x.obj = d) ∨ ∃ e ∈ s.ring.drop k, e.obj = d := fun d =>
    State.mem_loaded_none
  refine h.carry rfl rfl (fun d => ⟨?_, ?_⟩) (fun u => ?_)
  · rintro ⟨x, hx⟩
    cases x with
    | none =>
      refine ⟨none, State.mem_loaded_none.mpr ?_⟩
      rw [hring]
      exact ((hnone d).mp hx).imp_right .inr
    | some u =>
      by_cases hut : u = t
      · subst hut
        refine ⟨none, State.mem_loaded_none.mpr ?_⟩
        rw [hring]
        exact .inr (.inl ((hself d).mp hx))
      · rw [State.loaded, hu u hut] at hx
        exact ⟨some u, hx⟩
  · rintro ⟨x, hx⟩
    cases x with
    | none =>
      have hx := State.mem_loaded_none.mp hx
      rw [hring] at hx
      rcases hx with hx | hx | hx
      · exact ⟨none, (hnone d).mpr (.inl hx)⟩
      · exact ⟨some t, (hself d).mpr hx⟩
      · exact ⟨none, (hnone d).mpr (.inr hx)⟩
    | some u =>
      by_cases hut : u = t
      · subst hut
        rw [State.loaded, hv] at hx
        cases hx
      · refine ⟨some u, ?_⟩
        rw [State.loaded, hu u hut]
        exact hx
  · by_cases hut : u = t
    · subst hut
      rw [ht, hv]
    · rw [hu u hut]

omit [DecidableEq Tid] in
theorem Ledger.complete {k : ℕ} {res : ℤ} {x : Request} (h : Ledger first s)
    (hx : s.inflight[k]? = some x) : Ledger first (s.complete k ⟨x.obj, res, x.op⟩) := by
  refine h.carry rfl rfl (fun d => ?_) (fun _ => rfl)
  obtain ⟨hk, rfl⟩ := List.getElem?_eq_some_iff.mp hx
  have hmem : ∀ y, y ∈ s.inflight ↔ y = s.inflight[k] ∨ y ∈ s.inflight.eraseIdx k := fun y =>
    (List.getElem_cons_eraseIdx_perm hk).mem_iff.symm.trans List.mem_cons
  have hnone : d ∈ (s.complete k ⟨s.inflight[k].obj, res, s.inflight[k].op⟩).loaded none ↔
      d ∈ s.loaded none := by
    simp only [State.mem_loaded_none, State.complete, List.mem_append, List.mem_singleton,
      or_and_right, exists_or, exists_eq_left, hmem]
    rw [← or_assoc, or_comm, ← or_assoc]
  refine exists_congr fun q => ?_
  cases q with
  | none => exact hnone
  | some u => exact Iff.rfl

theorem View.refers_batch {iocb : ℕ → Iocb} {rest : List IoEvent} {hand : Option (ℕ × IocbData)} :
    View.Refers { batch := rest, hand := hand } iocb r ↔
      (∃ e ∈ rest, (iocb e.obj).data = .ref r) ∨ ∃ o, hand = some (o, .ref r) := by
  simp [View.Refers, View.loaded]

/-- The poller clears `data` in the iocb at hand; a reference that was there is now in
its local. -/
theorem Ledger.take {rest : List IoEvent} (ev : IoEvent) (hand : Option (ℕ × IocbData))
    (h : Ledger first s) (hown : Owned cfg s) (hs : s'.transfers = s.transfers)
    (hiocb : s'.iocb = Function.update s.iocb ev.obj { s.iocb ev.obj with data := .null })
    (hrefs : s'.refs = s.refs) (hpc : s'.pc = Function.update s.pc t q)
    (hb : ev.obj ∈ (s.pc t).holds s.events) (hv : s.view t = { batch := ev :: rest })
    (hq : q.view s.events = { batch := rest, hand := hand })
    (hhand : ∀ r, (∃ o, hand = some (o, .ref r)) ↔ (s.iocb ev.obj).data = .ref r) :
    Ledger first s' := by
  have hself : (s'.iocb ev.obj).data = .null := by
    rw [hiocb, Function.update_self]
  have hother : ∀ b, b ≠ ev.obj → s'.iocb b = s.iocb b := by
    intro b hne
    rw [hiocb, Function.update_of_ne hne]
  have hkeep : ∀ r, (q.view s.events).Refers s'.iocb r ↔ (s.view t).Refers s.iocb r := by
    intro r
    rw [hq, hv, View.refers_batch, View.refers_batch, hhand]
    constructor
    · rintro (⟨e, he, hr⟩ | hr)
      · refine .inl ⟨e, List.mem_cons_of_mem _ he, ?_⟩
        by_cases hne : e.obj = ev.obj
        · rw [hne, hself] at hr
          cases hr
        · rwa [hother _ hne] at hr
      · exact .inl ⟨ev, List.mem_cons_self, hr⟩
    · rintro (⟨e, he, hr⟩ | ⟨o, ho⟩)
      · by_cases hne : e.obj = ev.obj
        · exact .inr (hne ▸ hr)
        · rcases List.mem_cons.mp he with rfl | he
          · exact absurd rfl hne
          · exact .inl ⟨e, he, by rwa [hother _ hne]⟩
      · cases ho
  refine h.move hown hs hpc (fun b hnot => hother b fun he => hnot (he ▸ hb)) (hrefs ▸ le_rfl)
    (fun r hr => .inl ((hkeep r).mp hr)) (fun r hr _ => (hkeep r).mpr hr) fun r hr => ?_
  exact .inl (hrefs ▸ hr)

/-- Thread `t` deletes a reference that it keeps, and keeps the others. -/
theorem Ledger.delete {data : IocbData} (h : Ledger first s) (hown : Owned cfg s)
    (hs : s'.transfers = s.transfers) (hiocb : s'.iocb = s.iocb)
    (hrefs : s'.refs = s.refs.delete data) (hpc : s'.pc = Function.update s.pc t q)
    (hback : ∀ r, (q.view s.events).Refers s.iocb r → (s.view t).Refers s.iocb r)
    (hforth : ∀ r, (s.view t).Refers s.iocb r → (q.view s.events).Refers s.iocb r ∨ data = .ref r) :
    Ledger first s' := by
  refine h.move hown hs hpc (fun b _ => congrFun hiocb b) ?_ ?_ ?_ fun r hr => ?_
  · rw [hrefs, GlobalRefs.delete_fresh]
  · rw [hiocb]
    exact fun r hr => .inl (hback r hr)
  · rw [hiocb, hrefs]
    intro r hr hlive
    rcases hforth r hr with hr | rfl
    · exact hr
    · exact absurd GlobalRefs.delete_self hlive
  · rw [hrefs] at hr
    exact .inl (GlobalRefs.delete_live hr)

/-- Thread `t` is done with the first event of its batch, and has deleted the reference
in the iocb. -/
theorem Ledger.drop {rest : List IoEvent} (ev : IoEvent) (data : IocbData) (h : Ledger first s)
    (hown : Owned cfg s) (hs : s'.transfers = s.transfers) (hiocb : s'.iocb = s.iocb)
    (hrefs : s'.refs = s.refs.delete data) (hpc : s'.pc = Function.update s.pc t q)
    (hv : s.view t = { batch := ev :: rest }) (hq : q.view s.events = { batch := rest })
    (hdata : ∀ r, (s.iocb ev.obj).data = .ref r → data = .ref r) : Ledger first s' := by
  refine h.delete hown hs hiocb hrefs hpc (fun r hr => ?_) (fun r hr => ?_)
  · rw [hq] at hr
    rw [hv]
    rcases View.refers_batch.mp hr with ⟨e, he, hr⟩ | ⟨o, ho⟩
    · exact View.refers_batch.mpr (.inl ⟨e, List.mem_cons_of_mem _ he, hr⟩)
    · cases ho
  · rw [hv] at hr
    rw [hq]
    rcases View.refers_batch.mp hr with ⟨e, he, hd⟩ | ⟨o, ho⟩
    · rcases List.mem_cons.mp he with rfl | he
      · exact .inr (hdata r hd)
      · exact .inl (View.refers_batch.mpr (.inl ⟨e, he, hd⟩))
    · cases ho

theorem Ledger.submit {x : SubmitPc} (h : Ledger first s) (hown : Owned cfg s)
    (hpc : s.pc t = .submit x) (hm : SubmitMoves cfg s t ans x s') : Ledger first s' := by
  have hv : s.view t = (Pc.submit x).view s.events := by rw [State.view, hpc]
  cases hm with
  | prepared a b =>
    have hdata : (Function.update s.iocb b (a.prep (s.refs.new a.callback).1) b).data =
        (s.refs.new a.callback).1 := by
      rw [Function.update_self]
      rfl
    refine h.move hown rfl rfl (fun d hd => ?_) (s.refs.new_fresh_le _) ?_ ?_ ?_
    · refine Function.update_of_ne ?_ _ _
      rintro rfl
      rw [hpc] at hd
      exact hd (List.mem_singleton_self _)
    · rintro r (⟨d, hd, hr⟩ | ⟨o, ho⟩)
      · obtain rfl := List.mem_singleton.mp hd
        exact .inr (GlobalRefs.new_ref (hdata.symm.trans hr)).ge
      · cases ho
    · rintro r (⟨d, hd, -⟩ | ⟨o, ho⟩) -
      · rw [hv] at hd
        cases hd
      · rw [hv] at ho
        cases ho
    · intro r hr
      refine (GlobalRefs.new_live_cases hr).imp_right fun hnew => .inl ⟨b, ?_, ?_⟩
      · exact List.mem_singleton_self b
      · exact hdata.trans hnew
  | accepted a b _ _ => exact h.accept (a := a) hv rfl
  | refDeleted b errno =>
    refine h.delete hown rfl rfl rfl rfl (fun r hr => ?_) (fun r hr => .inr ?_)
    · rcases hr with ⟨d, hd, -⟩ | ⟨o, ho⟩
      · cases hd
      · cases ho
    · rw [hv] at hr
      rcases hr with ⟨d, hd, hr⟩ | ⟨o, ho⟩
      · obtain rfl := List.mem_singleton.mp hd
        exact hr
      · cases ho
  | _ => exact h.quiet hown rfl rfl rfl rfl (by rw [hv]; rfl) (by rw [hv]; rfl)

/-- `st` is not the place where the rest of a batch is given up. -/
theorem Ledger.event {f : Frame} {st : Stage} (h : Ledger first s) (hown : Owned cfg s)
    (hmat : Matched s) (hfd : ∀ g ∈ s.accepted, g.fd ≠ s.dumbWriteHandler) (hst : st ≠ .stop)
    (hpc : s.pc t = .blocked (.event f st)) (hm : EventMoves cfg s t ans f st s') :
    Ledger first s' := by
  have hv : s.view t = st.view s.events f := by
    rw [State.view, hpc]
    rfl
  cases hm with
  | isStop hlt hstop =>
    have hb : (s.view t).batch = s.events f.i :: eventsFrom s.events (f.i + 1) f.result := by
      rw [hv]
      exact eventsFrom_of_lt hlt
    obtain ⟨g, hg, hfit⟩ := hmat.at_hand hb
    exact absurd (hfit.fd_eq.symm.trans hstop) (hfd g (List.mem_of_getElem? hg))
  | stopped => exact absurd rfl hst
  | isEvent hlt _ =>
    refine h.quiet hown rfl rfl rfl rfl ?_ (by rw [hv]; rfl)
    rw [hv]
    simp only [Pc.view, Stage.view, View.loaded, eventsFrom_of_lt hlt]
  | batchEnd hle =>
    refine h.quiet hown rfl rfl rfl rfl ?_ (by rw [hv]; rfl)
    rw [hv]
    simp only [Pc.view, Stage.view, View.loaded, eventsFrom_of_le hle]
  | takenNull hnull =>
    refine h.take (s.events f.i) none hown rfl rfl rfl rfl
      (by rw [hpc]; exact List.mem_cons_self) hv rfl fun r => ?_
    rw [hnull]
    simp
  | taken hnull =>
    refine h.take (s.events f.i) (some ((s.events f.i).op, (s.iocb (s.events f.i).obj).data)) hown
      rfl rfl rfl rfl
      (by rw [hpc]; exact List.mem_cons_self) hv rfl fun r => ?_
    simp
  | refDeleted obj =>
    refine h.delete hown rfl rfl rfl rfl (fun r hr => ?_) (fun r hr => ?_)
    · rw [hv]
      exact View.refers_batch.mpr ((View.refers_batch.mp hr).imp_right (by rintro ⟨o, ⟨⟩⟩))
    · rw [hv] at hr
      rcases View.refers_batch.mp hr with hr | ⟨o, ho⟩
      · exact .inl (View.refers_batch.mpr (.inl hr))
      · exact .inr (Prod.mk.inj (Option.some.inj ho)).2
  | _ => exact h.quiet hown rfl rfl rfl rfl (by rw [hv]; rfl) (by rw [hv]; rfl)

theorem Ledger.blocked {x : BlockedPc} (h : Ledger first s) (hown : Owned cfg s)
    (hmat : Matched s) (hfd : ∀ g ∈ s.accepted, g.fd ≠ s.dumbWriteHandler)
    (hst : ∀ f, x ≠ .event f .stop) (hpc : s.pc t = .blocked x)
    (hal : ReadsAlone s (.step t ans)) (hm : BlockedMoves cfg s t ans x s') : Ledger first s' := by
  have hv : s.view t = (Pc.blocked x).view s.events := by rw [State.view, hpc]
  cases hm with
  | readInterrupted f _ => exact h
  | read f k _ hk => exact h.read .reaped hk hv (hal (by rw [hpc]; rfl)) fun _ => rfl
  | event f st _ hm =>
    exact h.event hown hmat hfd (fun he => hst f (he ▸ rfl)) hpc hm
  | _ => exact h.quiet hown rfl rfl rfl rfl (by rw [hv]; rfl) (by rw [hv]; rfl)

theorem Ledger.poll {x : PollPc} (h : Ledger first s) (hown : Owned cfg s)
    (hpc : s.pc t = .poll x) (hal : ReadsAlone s (.step t ans))
    (hm : PollMoves cfg s t ans x s') : Ledger first s' := by
  have hv : s.view t = (Pc.poll x).view s.events := by rw [State.view, hpc]
  cases hm with
  | read callbacks min max k _ hk =>
    exact h.read .polled hk hv (hal (by rw [hpc]; rfl)) fun _ => rfl
  | batchEnd f hle =>
    refine h.quiet hown rfl rfl rfl rfl ?_ (by rw [hv]; rfl)
    rw [hv]
    simp only [Pc.view, View.loaded, eventsFrom_of_le hle]
  | noError f hlt _ | errorSkipped f hlt _ _ | errorCalled f hlt _ _ _ =>
    refine h.quiet hown rfl rfl rfl rfl ?_ (by rw [hv]; rfl)
    rw [hv]
    simp only [Pc.view, View.loaded, eventsFrom_of_lt hlt]
  | notStored f hnone =>
    -- what stays behind in the iocb is no reference
    refine h.drop (s.events f.i) .null hown rfl rfl rfl rfl hv rfl fun r hr => ?_
    rcases hnone with hnone | hnone <;> rw [hnone] at hr <;> cases hr
  | refDeleted f => exact h.drop (s.events f.i) _ hown rfl rfl rfl rfl hv rfl fun _ hr => hr
  | _ => exact h.quiet hown rfl rfl rfl rfl (by rw [hv]; rfl) (by rw [hv]; rfl)

theorem Ledger.close {x : ClosePc} (h : Ledger first s) (hown : Owned cfg s)
    (hpc : s.pc t = .close x) (hout : (s.pc t).inDelete = false) (hbefore : s.pc t ≠ .close .getIOCB)
    (hm : CloseMoves cfg s t ans x s') : Ledger first s' := by
  have hv : s.view t = (Pc.close x).view s.events := by rw [State.view, hpc]
  rw [hpc] at hout
  cases hm with
  | timedOut _ _ | drained _ _ _ | unlimited _ =>
    exact h.quiet hown rfl rfl rfl rfl (by rw [hv]; rfl) (by rw [hv]; rfl)
  | noSpace _ | gotIOCB _ _ _ => exact absurd hpc hbefore
  | _ => cases hout

theorem Ledger.step (h : Ledger first s) (hown : Owned cfg s) (hmat : Matched s)
    (hfd : ∀ g ∈ s.accepted, g.fd ≠ s.dumbWriteHandler)
    (hst : ∀ t f, s.pc t ≠ .blocked (.event f .stop)) (hdel : Undeleted s)
    (honce : DeliversOnce l) (hbefore : BeforeDelete s l) (hal : ReadsAlone s l)
    (hn : next cfg s l = some s') : Ledger first s' := by
  cases next_moves hn with
  | call t o m _ hpc hm =>
    have hv : s.view t = {} := by
      rw [State.view, hpc]
      rfl
    cases hm <;> exact h.quiet hown rfl rfl rfl rfl (by rw [hv]; rfl) (by rw [hv]; rfl)
  | submit t ans q _ hpc hm => exact h.submit hown hpc hm
  | blocked t ans q _ hpc hm =>
    exact h.blocked hown hmat hfd (fun f he => hst t f (he ▸ hpc)) hpc hal hm
  | poll t ans q _ hpc hm => exact h.poll hown hpc hal hm
  | close t ans q _ hpc hm => exact h.close hown hpc (hdel.outside t) hbefore hm
  | complete k res r hr _ => exact h.complete hr
  | redeliver k ev _ => exact honce.elim
  | setForceSyscall value => exact ⟨h.base, h.own, h.kept⟩
  | closeDumbHandlers => exact ⟨h.base, h.own, h.kept⟩

omit [DecidableEq Tid] in
theorem Ledger.initial (env : Process) :
    Ledger env.refs.fresh (.initial cfg env : State Tid) where
  base := le_rfl
  own := by
    rintro (_ | t) r hr
    · obtain ⟨b, hb, -⟩ := hr
      cases hb
    · rcases hr with ⟨b, hb, -⟩ | ⟨o, ho⟩
      · cases hb
      · cases ho
  kept := fun r hr hlive => absurd (env.refs.live_fresh r hr) hlive

end ArtemisNative
