/-
ArtemisNative/Progress.lean

Nothing gets stuck in a context in use.

The other modules say what a context does not do; here it is said that it gets
done what it is asked for.  Threads submit requests with callbacks, others call
`poll()`, nobody closes the context (`InUse`).  Work (`Works`) is a completion by
the kernel, a step of a submission that is not interrupted, a step of the poller
over its batch, or a read that returns events.  `State.rank` counts the work that
is left: what a submission has ahead of it until its iocb is back in the pool, its
way through the kernel and through the hands of the poller included.  A submission
brings `19` units, a read that returns nothing one (the turn through the loop), and
nothing else adds to it; so there is only so much work, in whatever order it is done.

Where none can be done and a poller is in its loop, the context is `Quiet`: the
kernel has nothing, every accepted request has been reported to its callback, every
iocb is in the pool, and submitters are at most in front of the semaphore, without
permits.  That takes an ownership argument in the other direction than `Owned`: an
iocb that is out of the pool is in somebody's hands (`Kept`), because the poller
neither takes an event for the sentinel nor finds one without a callback.

Permits are a different matter.  A submission that the kernel rejects does not
return its permit, so a quiet context has all but one for each of these; and all
submitters have returned unless all permits are lost.
-/
import ArtemisNative.Duplicates
import ArtemisNative.Drained
import ArtemisNative.Lib.Potential

namespace ArtemisNative

open Transition

variable {Tid : Type} [DecidableEq Tid] {cfg : Config} {s s' : State Tid} {t u p : Tid}
variable {ans : Answer} {l : Label Tid} {o b : ℕ} {a : Submission}

/-! ### A context in use -/

/-- Threads submit with callbacks that return normally, on descriptors other than the
stop file, threads call `poll()`, and nothing else happens in the process. -/
def InUse (s : State Tid) (l : Label Tid) : Prop :=
  Submitting l ∧ Smooth l ∧ l.Submits (Proper s.dumbWriteHandler)

instance (s : State Tid) : DecidablePred (InUse s) := fun _ =>
  inferInstanceAs (Decidable (_ ∧ _ ∧ _))

/-- A request that the poller has not read is with the kernel. -/
def State.Awaited (s : State Tid) (o : ℕ) : Prop :=
  .reaped o ∈ s.log ∨ (∃ r ∈ s.inflight, r.op = o) ∨ ∃ e ∈ s.ring, e.op = o

structure Used (cfg : Config) (s : State Tid) : Prop where
  delivery : Delivery cfg s
  unclosed : Unclosed s
  kept : Kept s.outstanding s.holders
  awaited : ∀ o < s.accepted.length, s.Awaited o

omit [DecidableEq Tid] in
theorem Unclosed.delivers (h : Unclosed s) (hl : InUse s l) : Delivers s l :=
  ⟨h.blockedRun hl.1, hl.2⟩

omit [DecidableEq Tid] in
/-- The request of an event is one of a user, with a callback. -/
theorem Used.of_phase {q : Option Tid} {φ : Phase} (h : Used cfg s) (hφ : (o, φ) ∈ s.phases q) :
    ∃ a, s.accepted[o]? = some (.user a) ∧ Proper s.dumbWriteHandler a ∧
      φ.Needs s.dumbWriteHandler (.user a) := by
  obtain ⟨g, hg, hneeds, -⟩ := Tracks.logged h.delivery.coherent.tracked q o φ hφ
  cases g with
  | user a => exact ⟨a, hg, h.delivery.proper.accepted a (List.mem_of_getElem? hg), hneeds⟩
  | stop fd => exact absurd (List.mem_of_getElem? hg) (h.unclosed.accepted fd)

omit [DecidableEq Tid] in
/-- The poller does not take an event for the sentinel. -/
theorem Used.not_stop {f : Frame} (h : Used cfg s) : s.pc t ≠ .blocked (.event f .stop) := by
  intro hpc
  have hφ : ((s.events f.i).op, Phase.stopping (s.events f.i).res) ∈ s.phases (some t) := by
    rw [State.phases, hpc]
    exact List.mem_cons_self
  obtain ⟨a, -, hproper, hneeds⟩ := h.of_phase hφ
  exact hproper.2 hneeds

omit [DecidableEq Tid] in
/-- The poller does not find an event without a callback. -/
theorem Used.not_warn {f : Frame} (h : Used cfg s) : s.pc t ≠ .blocked (.event f .warn) := by
  intro hpc
  have hφ : ((s.events f.i).op, Phase.warning (s.events f.i).res) ∈ s.phases (some t) := by
    rw [State.phases, hpc]
    exact List.mem_cons_self
  obtain ⟨a, -, hproper, hneeds⟩ := h.of_phase hφ
  exact hproper.1 (Option.isNone_iff_eq_none.mp hneeds.2)

/-! ### No iocb is lost -/

/-- The threads beside the one that moves. -/
theorem next_pc_others (hn : next cfg s l = some s') (ht : l.tid? = some t) :
    ∀ u, u ≠ t → s'.pc u = s.pc u := fun _ hu =>
  next_pc_of_ne hn fun he => hu (Option.some.inj (he.symm.trans ht))

section Kept

variable {q : Pc}

/-- A thread moves on and keeps what it holds. -/
theorem State.kept_move (h : Kept s.outstanding s.holders) (hs : s'.pools = s.pools)
    (hpc : s'.pc = Function.update s.pc t q)
    (hq : ∀ b ∈ (s.pc t).holds s.events, b ∈ q.holds s.events) :
    Kept s'.outstanding s'.holders := by
  have hout : s'.outstanding = s.outstanding := congrArg (·.2.1) hs
  rw [holders_of_pools hs hpc, hout]
  exact h.replace (fun b hb => .inl hb) fun b hb _ => .inl (hq b hb)

/-- A thread takes an iocb out of the pool. -/
theorem State.kept_handOut {pool : IocbPool} (h : Kept s.outstanding s.holders)
    (hs : s'.pools = (s.handOut b pool).pools) (hpc : s'.pc = Function.update s.pc t q)
    (hq : q.holds s.events = b :: (s.pc t).holds s.events) : Kept s'.outstanding s'.holders := by
  have hout : s'.outstanding = insert b s.outstanding := congrArg (·.2.1) hs
  have hH : s'.holders = Function.update s.holders (some t) (q.holds s.events) :=
    holders_of_pools (s := s.handOut b pool) hs hpc
  rw [hH, hout, hq]
  apply h.replace
  · intro b' hb'
    rcases Finset.mem_insert.mp hb' with rfl | hb'
    · exact .inr List.mem_cons_self
    · exact .inl hb'
  · exact fun b' hb' _ => .inl (List.mem_cons_of_mem _ hb')

/-- A thread puts an iocb back. -/
theorem State.kept_putBack (h : Kept s.outstanding s.holders)
    (hs : s'.pools = (s.putBack b).pools) (hpc : s'.pc = Function.update s.pc t q)
    (hq : (s.pc t).holds s.events = b :: q.holds s.events) : Kept s'.outstanding s'.holders := by
  have hout : s'.outstanding = s.outstanding.erase b := congrArg (·.2.1) hs
  have hH : s'.holders = Function.update s.holders (some t) (q.holds s.events) :=
    holders_of_pools (s := s.putBack b) hs hpc
  rw [hH, hout]
  apply h.replace
  · exact fun b' hb' => .inl (Finset.mem_of_mem_erase hb')
  · intro b' hb' hb''
    have hmem : b' ∈ b :: q.holds s.events := hq ▸ hb'
    rcases List.mem_cons.mp hmem with rfl | hmem
    · exact absurd rfl (Finset.ne_of_mem_erase hb'')
    · exact .inl hmem

/-- The kernel takes the iocb of a thread. -/
theorem State.kept_accept (origin : Origin) (h : Kept s.outstanding s.holders)
    (hs : s'.pools = (s.accept b origin).pools) (hpc : s'.pc = Function.update s.pc t q)
    (hq : (s.pc t).holds s.events = b :: q.holds s.events) : Kept s'.outstanding s'.holders := by
  have hout : s'.outstanding = s.outstanding := congrArg (·.2.1) hs
  have hkernel : (s.accept b origin).holders = Function.update s.holders none
      (s.inflight.map (·.obj) ++ [b] ++ s.ring.map (·.obj)) := by
    funext r
    cases r with
    | none =>
      rw [Function.update_self]
      simp [State.holders, State.accept]
    | some u =>
      rw [Function.update_of_ne (by rintro ⟨⟩)]
      rfl
  have hb : b ∈ s.inflight.map (·.obj) ++ [b] ++ s.ring.map (·.obj) := by simp
  have h₁ : Kept s.outstanding (s.accept b origin).holders := by
    rw [hkernel]
    apply h.replace (fun b' hb' => .inl hb')
    intro b' hb' _
    rcases List.mem_append.mp hb' with hb' | hb'
    · exact .inl (List.mem_append_left _ (List.mem_append_left _ hb'))
    · exact .inl (List.mem_append_right _ hb')
  rw [holders_of_pools hs hpc, hout]
  apply h₁.replace (fun b' hb' => .inl hb')
  intro b' hb' _
  have hmem : b' ∈ b :: q.holds s.events := hq ▸ hb'
  rcases List.mem_cons.mp hmem with rfl | hmem
  · refine .inr ⟨none, by rintro ⟨⟩, ?_⟩
    rw [hkernel, Function.update_self]
    exact hb
  · exact .inl hmem

/-- A thread without a batch takes events from the ring. -/
theorem State.kept_read {k : ℕ} (obs : ℕ → Obs) (h : Kept s.outstanding s.holders)
    (hk : k ≤ s.ring.length) (hs : s'.pools = (s.getEvents k obs).pools)
    (hpc : s'.pc = Function.update s.pc t q) (hother : ∀ u, u ≠ t → (s.pc u).inBatch = false)
    (ht : (s.pc t).holds s.events = []) (hq : ∀ ev, q.holds ev = objsFrom ev 0 k) :
    Kept s'.outstanding s'.holders := by
  have hout : s'.outstanding = s.outstanding := congrArg (·.2.1) hs
  have hmine : s'.holders (some t) = (s.ring.take k).map (·.obj) := by
    rw [holders_of_pools hs hpc, Function.update_self, hq, objsFrom, eventsFrom_getEvents obs hk]
  have hkernel : s'.holders none = s.inflight.map (·.obj) ++ (s.ring.drop k).map (·.obj) := by
    rw [holders_of_pools hs hpc, Function.update_of_ne (by rintro ⟨⟩)]
    rfl
  intro b hb
  obtain ⟨r, hr⟩ := h b (hout ▸ hb)
  cases r with
  | none =>
    rcases List.mem_append.mp hr with hr | hr
    · exact ⟨none, by rw [hkernel]; exact List.mem_append_left _ hr⟩
    · rw [← List.take_append_drop k s.ring, List.map_append] at hr
      rcases List.mem_append.mp hr with hr | hr
      · exact ⟨some t, by rwa [hmine]⟩
      · exact ⟨none, by rw [hkernel]; exact List.mem_append_right _ hr⟩
  | some u =>
    by_cases hu : u = t
    · subst hu
      have hmem : b ∈ (s.pc u).holds s.events := hr
      rw [ht] at hmem
      cases hmem
    · refine ⟨some u, ?_⟩
      rw [holders_of_pools hs hpc, Function.update_of_ne fun he => hu (Option.some.inj he)]
      show b ∈ (s.pc u).holds (s.getEvents k obs).events
      rwa [Pc.holds_of_not_inBatch _ s.events (hother u hu)]

omit [DecidableEq Tid] in
/-- The iocb of an event at hand is that of a submission with a callback. -/
theorem Used.at_hand {ev : IoEvent} {rest : List IoEvent} (h : Used cfg s)
    (hb : (s.view t).batch = ev :: rest) :
    (s.iocb ev.obj).aio_fildes ≠ s.dumbWriteHandler ∧ (s.iocb ev.obj).data ≠ .null := by
  obtain ⟨g, hg, hfits⟩ := h.delivery.coherent.matched.at_hand hb
  cases g with
  | stop fd => exact absurd (List.mem_of_getElem? hg) (h.unclosed.accepted fd)
  | user a =>
    have hproper := h.delivery.proper.accepted a (List.mem_of_getElem? hg)
    refine ⟨fun hfd => hproper.2 (hfits.fd_eq.symm.trans hfd), fun hnull => hproper.1 ?_⟩
    exact Option.isNone_iff_eq_none.mp (hfits.1.null_iff.mp hnull)

theorem Used.kept_event {f : Frame} {st : Stage} (h : Used cfg s)
    (hpc : s.pc t = .blocked (.event f st)) (hm : EventMoves cfg s t ans f st s') :
    Kept s'.outstanding s'.holders := by
  have hsame : ∀ {q : Pc}, q.holds s.events = (s.pc t).holds s.events →
      ∀ b ∈ (s.pc t).holds s.events, b ∈ q.holds s.events := fun he b hb => he ▸ hb
  cases hm with
  | isStop hlt hfd =>
    have hb : (s.view t).batch = s.events f.i :: eventsFrom s.events (f.i + 1) f.result := by
      rw [State.view, hpc]
      exact eventsFrom_of_lt hlt
    exact absurd hfd (h.at_hand hb).1
  | takenNull hnull =>
    have hb : (s.view t).batch = s.events f.i :: eventsFrom s.events (f.i + 1) f.result := by
      rw [State.view, hpc]
      rfl
    exact absurd hnull (h.at_hand hb).2
  | isEvent hlt _ =>
    exact State.kept_move h.kept rfl rfl (hsame (by rw [hpc]; exact (objsFrom_of_lt hlt).symm))
  | batchEnd hle =>
    exact State.kept_move h.kept rfl rfl (hsame (by rw [hpc]; exact (objsFrom_of_le hle).symm))
  | stopped | put => exact State.kept_putBack h.kept rfl rfl (by rw [hpc]; rfl)
  | _ => exact State.kept_move h.kept rfl rfl (hsame (by rw [hpc]; rfl))

/-- **No iocb is lost**: what is out of the pool stays in somebody's hands. -/
theorem Used.kept_step (h : Used cfg s) (hl : InUse s l) (hn : next cfg s l = some s') :
    Kept s'.outstanding s'.holders := by
  have hsame : ∀ {t : Tid} {q : Pc}, q.holds s.events = (s.pc t).holds s.events →
      ∀ b ∈ (s.pc t).holds s.events, b ∈ q.holds s.events := fun he b hb => he ▸ hb
  cases next_moves hn with
  | call t o m _ hpc hm =>
    cases hm with
    | pollInto callbacks min max => exact hl.1.elim
    | closeAgain _ | close _ => exact hl.1.elim
    | _ => exact State.kept_move h.kept rfl rfl (hsame (by rw [hpc]; rfl))
  | submit t ans q _ hpc hm =>
    cases hm with
    | gotIOCB a b pool hg => exact State.kept_handOut h.kept rfl rfl (by rw [hpc]; rfl)
    | accepted a b _ _ => exact State.kept_accept (.user a) h.kept rfl rfl (by rw [hpc]; rfl)
    | undone b errno => exact State.kept_putBack h.kept rfl rfl (by rw [hpc]; rfl)
    | _ => exact State.kept_move h.kept rfl rfl (hsame (by rw [hpc]; rfl))
  | blocked t ans q _ hpc hm =>
    cases hm with
    | readInterrupted f _ => exact h.kept
    | read f k _ hk =>
      have hother := h.delivery.locked.readsAlone (.step t ans) (by rw [hpc]; rfl)
      exact State.kept_read .reaped h.kept hk rfl rfl hother (by rw [hpc]; rfl) fun _ => rfl
    | event f st _ hm => exact h.kept_event hpc hm
    | _ => exact State.kept_move h.kept rfl rfl (hsame (by rw [hpc]; rfl))
  | poll t ans q _ hpc hm => exact absurd hpc (h.delivery.locked.blocked t q)
  | close t ans q _ hpc hm =>
    have hout := h.unclosed.outside t
    rw [hpc] at hout
    cases hout
  | complete k res r hr _ =>
    -- the iocb goes from the requests in flight to the ring, both of which nobody holds
    intro b hb
    obtain ⟨q, hq⟩ := h.kept b hb
    cases q with
    | some u => exact ⟨some u, hq⟩
    | none =>
      refine ⟨none, ?_⟩
      obtain ⟨hk, rfl⟩ := List.getElem?_eq_some_iff.mp hr
      have hperm := (List.getElem_cons_eraseIdx_perm hk).map Request.obj
      show b ∈ (s.inflight.eraseIdx k).map Request.obj ++ (s.ring ++ [_]).map IoEvent.obj
      rcases List.mem_append.mp hq with hq | hq
      · rcases List.mem_cons.mp (hperm.mem_iff.mpr hq) with rfl | hq
        · simp
        · exact List.mem_append_left _ hq
      · rw [List.map_append]
        exact List.mem_append_right _ (List.mem_append_left _ hq)
  | redeliver k ev _ => exact hl.1.elim
  | setForceSyscall value => exact hl.1.elim
  | closeDumbHandlers => exact hl.1.elim

end Kept

/-! ### No request is lost -/

omit [DecidableEq Tid] in
theorem State.Awaited.keep (h : s.Awaited o) (hi : s.inflight <+: s'.inflight)
    (hr : s'.ring = s.ring) (hlog : s.log <+: s'.log) : s'.Awaited o := by
  rcases h with hread | ⟨r, hr', hop⟩ | he
  · exact .inl (hlog.subset hread)
  · exact .inr (.inl ⟨r, hi.subset hr', hop⟩)
  · exact .inr (.inr (hr ▸ he))

/-- Only `blockedPoll` takes requests from the kernel, as long as nobody is in the other
`poll` and the context is not taken apart. -/
theorem State.Awaited.step (h : s.Awaited o)
    (hothers : ∀ t, l.tid? = some t → (∀ q, s.pc t ≠ .poll q) ∧ (s.pc t).tearsDown = false)
    (hn : next cfg s l = some s') : s'.Awaited o := by
  have hlog := (next_appends hn).2
  have hsame : ∀ {L : List Request}, L <+: L := List.prefix_rfl
  cases next_moves hn with
  | call t o m _ hpc hm => cases hm <;> exact h.keep hsame rfl hlog
  | submit t ans q _ hpc hm =>
    cases hm with
    | accepted a b _ _ => exact h.keep (List.prefix_append _ _) rfl hlog
    | _ => exact h.keep hsame rfl hlog
  | blocked t ans q _ hpc hm =>
    cases hm with
    | read f k _ hk =>
      rcases h with hread | hi | ⟨e, he, hop⟩
      · exact .inl (hlog.subset hread)
      · exact .inr (.inl hi)
      · -- an event of the ring has been read, or stays there
        rw [← List.take_append_drop k s.ring] at he
        rcases List.mem_append.mp he with he | he
        · refine .inl (List.mem_append_right _ ?_)
          rw [← hop]
          exact List.mem_map_of_mem he
        · exact .inr (.inr ⟨e, he, hop⟩)
    | event f st _ hm => cases hm <;> exact h.keep hsame rfl hlog
    | _ => exact h.keep hsame rfl hlog
  | poll t ans q _ hpc hm => exact absurd hpc ((hothers t rfl).1 q)
  | close t ans q _ hpc hm =>
    have hdown := (hothers t rfl).2
    rw [hpc] at hdown
    cases hm with
    | accepted b _ _ => exact h.keep (List.prefix_append _ _) rfl hlog
    | read k _ _ => cases hdown
    | queueReleased => cases hdown
    | _ => exact h.keep hsame rfl hlog
  | complete k res r hr _ =>
    obtain ⟨hk, rfl⟩ := List.getElem?_eq_some_iff.mp hr
    rcases h with hread | ⟨r, hr', hop⟩ | ⟨e, he, hop⟩
    · exact .inl (hlog.subset hread)
    · rcases List.mem_cons.mp ((List.getElem_cons_eraseIdx_perm hk).mem_iff.mpr hr') with rfl | hr'
      · exact .inr (.inr ⟨_, List.mem_append_right _ (List.mem_singleton_self _), hop⟩)
      · exact .inr (.inl ⟨r, hr', hop⟩)
    · exact .inr (.inr ⟨e, List.mem_append_left _ he, hop⟩)
  | redeliver k ev _ => exact h.imp_right fun hk => hk.imp_right fun ⟨e, he, hop⟩ =>
      ⟨e, List.mem_append_left _ he, hop⟩
  | setForceSyscall value => exact h
  | closeDumbHandlers => exact h

/-- A request that has just been accepted is with the kernel. -/
theorem next_awaited (hn : next cfg s l = some s')
    (hlt : s.accepted.length < s'.accepted.length) : s'.Awaited s.accepted.length := by
  have hnew : ∀ {b : ℕ}, (⟨b, s.accepted.length⟩ : Request) ∈
      s.inflight ++ [⟨b, s.accepted.length⟩] :=
    List.mem_append_right _ (List.mem_singleton_self _)
  have hsame : ¬s.accepted.length < s.accepted.length := Nat.lt_irrefl _
  cases next_moves hn with
  | call t o m _ hpc hm => cases hm <;> exact absurd hlt hsame
  | submit t ans q _ hpc hm =>
    cases hm with
    | accepted a b _ _ => exact .inr (.inl ⟨⟨b, _⟩, hnew, rfl⟩)
    | _ => exact absurd hlt hsame
  | blocked t ans q _ hpc hm =>
    cases hm with
    | event f st _ hm => cases hm <;> exact absurd hlt hsame
    | _ => exact absurd hlt hsame
  | poll t ans q _ hpc hm => cases hm <;> exact absurd hlt hsame
  | close t ans q _ hpc hm =>
    cases hm with
    | accepted b _ _ => exact .inr (.inl ⟨⟨b, _⟩, hnew, rfl⟩)
    | _ => exact absurd hlt hsame
  | complete k res r hr _ => exact absurd hlt hsame
  | redeliver k ev _ => exact absurd hlt hsame
  | setForceSyscall value => exact absurd hlt hsame
  | closeDumbHandlers => exact absurd hlt hsame

theorem Used.awaited_step (h : Used cfg s) (hn : next cfg s l = some s') :
    ∀ o < s'.accepted.length, s'.Awaited o := by
  have hothers : ∀ t, l.tid? = some t →
      (∀ q, s.pc t ≠ .poll q) ∧ (s.pc t).tearsDown = false := fun t _ =>
    ⟨h.delivery.locked.blocked t, h.delivery.locked.before t⟩
  intro o ho
  have hlen : s'.accepted.length ≤ s.accepted.length + 1 := by
    rcases next_accepted hn with hacc | ⟨_, _, _, -, -, hacc⟩ | ⟨_, _, -, -, -, hacc⟩ <;>
      rw [hacc] <;> simp
  by_cases hold : o < s.accepted.length
  · exact (h.awaited o hold).step hothers hn
  · obtain rfl : o = s.accepted.length := by omega
    exact next_awaited hn ho

theorem Used.step (h : Used cfg s) (hl : InUse s l) (hn : next cfg s l = some s') :
    Used cfg s' where
  delivery := h.delivery.step (h.unclosed.delivers hl) hn
  unclosed := h.unclosed.step hl.1 hn
  kept := h.kept_step hl hn
  awaited := h.awaited_step hn

omit [DecidableEq Tid] in
theorem Used.initial (hq : 0 < cfg.queueSize) (env : Process) :
    Used cfg (.initial cfg env : State Tid) where
  delivery := .initial hq env
  unclosed := ⟨fun _ => rfl, by simp [State.initial]⟩
  kept := by simp [Kept, State.initial]
  awaited := by simp [State.initial]

omit [DecidableEq Tid] in
/-- Nothing is behind a sentinel: there is none. -/
theorem Used.not_behind (h : Used cfg s) : ¬s.Behind o := by
  rintro ⟨z, g, hz, hfd, -⟩
  cases g with
  | user a => exact (h.delivery.proper.accepted a (List.mem_of_getElem? hz)).2 hfd
  | stop fd => exact h.unclosed.accepted fd (List.mem_of_getElem? hz)

omit [DecidableEq Tid] in
/-- A request is with the kernel, at hand, or reported. -/
theorem Used.cases (h : Used cfg s) (ho : s.accepted[o]? = some (.user a)) :
    (s.inflight ≠ [] ∨ s.ring ≠ []) ∨ (∃ t, s.AtHand t o) ∨
      ∃ res, about Obs.op? o s.log = report cfg a o res := by
  rcases h.awaited o (List.getElem?_eq_some_iff.mp ho).1 with hread | ⟨r, hr, -⟩ | ⟨e, he, -⟩
  · obtain ⟨res, hrep | ⟨-, hat⟩⟩ := h.delivery.reaped ho hread h.not_behind
    · exact .inr (.inr ⟨res, hrep⟩)
    · exact .inr (.inl hat)
  · exact .inl (.inl (List.ne_nil_of_mem hr))
  · exact .inl (.inr (List.ne_nil_of_mem he))

/-! ### Work -/

/-- A step of a submission that is not interrupted, a read that returns events, and a
step over a batch. -/
def Pc.works (ans : Answer) : Pc → Bool
  | .submit _ => !ans.interrupted
  | .blocked (.getEvents _) => 0 < ans.events
  | .blocked (.event _ _) => true
  | _ => false

/-- Steps that get done what has been asked for. -/
def works (s : State Tid) : Label Tid → Bool
  | .step t ans => (s.pc t).works ans
  | .complete _ _ => true
  | _ => false

def Works (s : State Tid) (l : Label Tid) : Prop := works s l = true

omit [DecidableEq Tid] in
instance (s : State Tid) : DecidablePred (Works s) := fun l =>
  inferInstanceAs (Decidable (works s l = true))

/-- `submitWrite` or `submitRead` is called. -/
def isSubmit (_ : State Tid) : Label Tid → Bool
  | .call _ (.submit _) => true
  | _ => false

def Pc.readsNothing (ans : Answer) : Pc → Bool
  | .blocked (.getEvents _) => ans.events = 0
  | _ => false

/-- The poller reads and gets no event. -/
def readsNothing (s : State Tid) : Label Tid → Bool
  | .step t ans => (s.pc t).readsNothing ans
  | _ => false

/-- What a thread has ahead of it: a submitter up to the iocb's return to the pool,
which another thread brings about, a poller up to its next read. -/
def Pc.ahead : Pc → ℕ
  | .submit (.acquire _) => 19
  | .submit (.getIOCB _) => 18
  | .submit (.prep _ _) => 17
  | .submit (.ioSubmit _ _) => 16
  | .submit (.deleteRef _ _) => 2
  | .submit (.putIOCB _ _) => 1
  | q => q.work

section Rank

variable [Fintype Tid]

/-- The work that is left, when `ahead` is what a thread has ahead of it. -/
def State.rank (ahead : Pc → ℕ) (s : State Tid) : ℕ :=
  15 * s.inflight.length + 14 * s.ring.length + ∑ u, ahead (s.pc u)

/-- What a label adds to it. -/
def grant (s : State Tid) (l : Label Tid) : ℕ :=
  (if isSubmit s l then 19 else 0) + if readsNothing s l then 1 else 0

omit [DecidableEq Tid] [Fintype Tid] in
/-- Work adds nothing. -/
theorem grant_of_works (hw : works s l = true) : grant s l = 0 := by
  cases l with
  | step t ans =>
    have hreads : (s.pc t).readsNothing ans = false := by
      have hw' : (s.pc t).works ans = true := hw
      rcases hq : s.pc t with _ | _ | q | _ | _ <;> try rfl
      cases q with
      | getEvents f =>
        rw [hq] at hw'
        have hpos : 0 < ans.events := of_decide_eq_true hw'
        exact decide_eq_false hpos.ne'
      | _ => rfl
    simp [grant, isSubmit, readsNothing, hreads]
  | complete k res => rfl
  | _ => exact absurd hw Bool.false_ne_true

/-- A step of one thread: what it does to the rank. -/
theorem State.rank_move {ahead : Pc → ℕ} {w g : ℕ} (hstay : ∀ u, u ≠ t → s'.pc u = s.pc u)
    (hle : 15 * s'.inflight.length + 14 * s'.ring.length + ahead (s'.pc t) + w
      ≤ 15 * s.inflight.length + 14 * s.ring.length + ahead (s.pc t) + g) :
    s'.rank ahead + w ≤ s.rank ahead + g := by
  have hrest : ∑ u ∈ Finset.univ.erase t, ahead (s'.pc u) =
      ∑ u ∈ Finset.univ.erase t, ahead (s.pc u) := by
    apply Finset.sum_congr rfl
    intro u hu
    rw [hstay u (Finset.ne_of_mem_erase hu)]
  have hnew := Finset.add_sum_erase Finset.univ (fun u => ahead (s'.pc u)) (Finset.mem_univ t)
  have hold := Finset.add_sum_erase Finset.univ (fun u => ahead (s.pc u)) (Finset.mem_univ t)
  rw [State.rank, State.rank]
  omega

omit [Fintype Tid] in
/-- A read, by what it returns. -/
theorem next_blockedRead {f : Frame} (hpc : s.pc t = .blocked (.getEvents f))
    (hn : next cfg s (.step t ans) = some s') :
    ans.events < 0 ∧ (s' = s ∨ ∃ o, s' = s.goto t (.blocked (.unlock o))) ∨
      0 ≤ ans.events ∧ ans.events.toNat ≤ s.ring.length ∧
        s' = (s.getEvents ans.events.toNat .reaped).goto t (.blocked (.event
          { f with i := 0, result := ans.events.toNat, lastFile := -1 } .test)) := by
  simp only [next, hpc, threadStep, blockedStep] at hn
  split at hn
  · rename_i hmay
    split at hn
    · rename_i hintr
      obtain rfl := Option.some.inj hn
      exact .inl ⟨by rw [hintr, EINTR]; omega, .inl rfl⟩
    · split at hn
      · rename_i hneg
        obtain rfl := Option.some.inj hn
        exact .inl ⟨hneg, .inr ⟨_, rfl⟩⟩
      · rename_i hpos
        obtain rfl := Option.some.inj hn
        exact .inr ⟨Int.not_lt.mp hpos, (hmay.resolve_left hpos).2, rfl⟩
  · cases hn

/-- A read trades events for work on them. -/
theorem rank_read {f : Frame} (hpc : s.pc t = .blocked (.getEvents f))
    (hn : next cfg s (.step t ans) = some s') :
    s'.rank Pc.ahead + (if works s (.step t ans) then 1 else 0)
      ≤ s.rank Pc.ahead + grant s (.step t ans) := by
  have hworks : works s (.step t ans) = decide (0 < ans.events) := by
    simp only [works, hpc, Pc.works]
  have hgrant : grant s (.step t ans) = if ans.events = 0 then 1 else 0 := by
    simp [grant, isSubmit, readsNothing, hpc, Pc.readsNothing]
  rw [hworks, hgrant]
  rcases next_blockedRead hpc hn with ⟨hneg, rfl | ⟨o, rfl⟩⟩ | ⟨hpos, hlen, rfl⟩
  · simp [Int.not_lt.mpr hneg.le]
  · rw [decide_eq_false (Int.not_lt.mpr hneg.le), if_neg hneg.ne]
    apply State.rank_move fun u hu => Function.update_of_ne hu _ _
    simp [State.goto, hpc, Pc.ahead, Pc.work]
  · apply State.rank_move fun u hu => Function.update_of_ne hu _ _
    simp only [State.goto, State.getEvents, hpc, Pc.ahead, Pc.work, Function.update_self,
      List.length_drop, decide_eq_true_eq]
    -- `14` for each event that leaves the ring pay for `12` each, and the turn
    split <;> split <;> omega

omit [Fintype Tid] in
theorem EventMoves.kernel {f : Frame} {st : Stage} (hm : EventMoves cfg s t ans f st s') :
    s'.inflight = s.inflight ∧ s'.ring = s.ring := by
  cases hm <;> exact ⟨rfl, rfl⟩

omit [Fintype Tid] in
theorem EventMoves.stays_blocked {f : Frame} {st : Stage} (hm : EventMoves cfg s t ans f st s') :
    ∃ q, s'.pc t = .blocked q := by
  cases hm <;> exact ⟨_, Function.update_self ..⟩

/-- **Work is used up**, and only submissions and reads that return nothing bring new
work. -/
theorem Used.rank_step (h : Used cfg s) (hl : InUse s l) (hn : next cfg s l = some s') :
    s'.rank Pc.ahead + (if works s l then 1 else 0) ≤ s.rank Pc.ahead + grant s l := by
  cases next_moves hn with
  | call t o m _ hpc hm =>
    cases hm with
    | pollInto callbacks min max => exact hl.1.elim
    | closeAgain _ | close _ => exact hl.1.elim
    | _ =>
      apply State.rank_move (next_pc_others hn rfl)
      simp [State.goto, hpc, Pc.ahead, Pc.work, works, grant, isSubmit, readsNothing]
  | submit t ans q _ hpc hm =>
    have hw : (if works s (.step t ans) then 1 else 0) ≤ 1 := by split <;> omega
    cases hm with
    | _ =>
      refine le_trans (Nat.add_le_add_left hw _) ?_
      apply State.rank_move (next_pc_others hn rfl)
      simp [State.goto, State.handOut, State.setIocb, State.accept, State.deleteRef,
        State.putBack, hpc, Pc.ahead, Pc.work] <;> omega
  | blocked t ans q _ hpc hm =>
    cases hm with
    | readInterrupted f _ | readFailed f _ | read f _ _ _ => exact rank_read hpc hn
    | event f st _ hm =>
      -- every step on an event is one less for the thread, and nothing changes for the kernel
      have hw : (if works s (.step t ans) then 1 else 0) ≤ 1 := by split <;> omega
      have hlt := hm.work_lt
      obtain ⟨q, hq⟩ := hm.stays_blocked
      have hkernel := hm.kernel
      refine le_trans (Nat.add_le_add_left hw _) ?_
      apply State.rank_move (next_pc_others hn rfl)
      rw [hkernel.1, hkernel.2, hpc, hq]
      rw [hq] at hlt
      show _ + (Pc.blocked q).work + 1 ≤ _ + (Pc.blocked (.event f st)).work + _
      omega
    | _ =>
      apply State.rank_move (next_pc_others hn rfl)
      simp [State.goto, hpc, Pc.ahead, Pc.work, works, Pc.works]
  | poll t ans q _ hpc hm => exact absurd hpc (h.delivery.locked.blocked t q)
  | close t ans q _ hpc hm =>
    have hout := h.unclosed.outside t
    rw [hpc] at hout
    cases hout
  | complete k res r hr _ =>
    obtain ⟨hk, rfl⟩ := List.getElem?_eq_some_iff.mp hr
    have hlen := List.length_eraseIdx_of_lt hk
    -- a request counts one more in flight than in the ring
    show 15 * (s.inflight.eraseIdx k).length + 14 * (s.ring ++ [_]).length
        + ∑ u, (s.pc u).ahead + 1
      ≤ 15 * s.inflight.length + 14 * s.ring.length + ∑ u, (s.pc u).ahead + _
    rw [hlen, List.length_append, List.length_singleton]
    omega
  | redeliver k ev _ => exact hl.1.elim
  | setForceSyscall value => exact hl.1.elim
  | closeDumbHandlers => exact hl.1.elim

end Rank

/-! ### A state of rest -/

/-- Work, in a context in use. -/
def Productive (s : State Tid) (l : Label Tid) : Prop := InUse s l ∧ Works s l

instance (s : State Tid) : DecidablePred (Productive s) := fun _ =>
  inferInstanceAs (Decidable (_ ∧ _))

/-- In the loop of `blockedPoll`. -/
def Pc.inLoop : Pc → Bool
  | .blocked (.getEvents _) | .blocked (.event _ _) => true
  | _ => false

theorem Pc.of_inLoop {q : Pc} (h : q.inLoop = true) :
    (∃ f, q = .blocked (.getEvents f)) ∨ ∃ f st, q = .blocked (.event f st) := by
  cases q with
  | blocked q =>
    cases q with
    | getEvents f => exact .inl ⟨f, rfl⟩
    | event f st => exact .inr ⟨f, st, rfl⟩
    | lock => cases h
    | unlock o => cases h
  | _ => cases h

/-- Nothing is left to do. -/
structure Quiet (cfg : Config) (s : State Tid) : Prop where
  inflight : s.inflight = []
  ring : s.ring = []
  reported : s.AllReported cfg
  pool : s.outstanding = ∅
  submitters : ∀ t q, s.pc t = .submit q →
    (∃ a, q = .acquire a) ∧ cfg.useSemaphore = true ∧ s.ioSpace = 0

/-- Work does not take the poller out of its loop. -/
theorem Used.inLoop_step (h : Used cfg s) (hl : Productive s l) (hn : next cfg s l = some s')
    (hp : (s.pc p).inLoop = true) : (s'.pc p).inLoop = true := by
  by_cases hmine : l.tid? = some p
  · cases l with
    | step t ans =>
      obtain rfl := Option.some.inj hmine
      have hw : (s.pc t).works ans = true := hl.2
      rcases Pc.of_inLoop hp with ⟨f, hq⟩ | ⟨f, st, hq⟩
      · rw [hq] at hw
        have hpos : 0 < ans.events := of_decide_eq_true hw
        rcases next_blockedRead hq hn with ⟨hneg, -⟩ | ⟨-, -, rfl⟩
        · omega
        · rw [State.pc_goto]
          rfl
      · cases next_moves hn with
        | blocked _ _ q _ hpc hm =>
          obtain rfl := Pc.blocked.inj (hq.symm.trans hpc)
          cases hm with
          | event _ _ _ hm =>
            cases hm with
            | stopped => exact absurd hq h.not_stop
            | _ => rw [State.pc_goto]; rfl
        | submit _ _ q _ hpc _ | poll _ _ q _ hpc _ | close _ _ q _ hpc _ =>
          rw [hq] at hpc
          cases hpc
    | call t m =>
      exact absurd hl.2 Bool.false_ne_true
    | _ => cases hmine
  · rwa [next_pc_of_ne hn hmine]

/-- With nothing left to do, a poller waits for events. -/
theorem rests_poller (hp : (s.pc p).inLoop = true)
    (hrest : Rests (next cfg) Productive s) : ∃ f, s.pc p = .blocked (.getEvents f) := by
  rcases Pc.of_inLoop hp with hf | ⟨f, st, hq⟩
  · exact hf
  · -- it could go on with its batch
    have hsome : (next cfg s (.step p {})).isSome := step_isSome hq
    obtain ⟨s', hn⟩ := Option.isSome_iff_exists.mp hsome
    have hw : works s (.step p {}) = true := by
      simp only [works, hq, Pc.works]
    exact absurd hn (hrest (.step p {}) s' ⟨⟨trivial, rfl, trivial⟩, hw⟩)

theorem rests_kernel (hrest : Rests (next cfg) Productive s) : s.inflight = [] := by
  by_contra hne
  obtain ⟨r, rs, hrs⟩ := List.exists_cons_of_ne_nil hne
  have hn : next cfg s (.complete 0 0) = some (s.complete 0 ⟨r.obj, 0, r.op⟩) := by
    simp only [next, completeStep, hrs]
    rfl
  exact hrest (.complete 0 0) _ ⟨⟨trivial, trivial, trivial⟩, rfl⟩ hn

theorem rests_ring {f : Frame} (hq : 0 < cfg.queueSize) (hpc : s.pc p = .blocked (.getEvents f))
    (hrest : Rests (next cfg) Productive s) : s.ring = [] := by
  by_contra hne
  have hlen := List.length_pos_iff.mpr hne
  have hmay : s.mayReturn cfg.queueSize 1 := .inr ⟨by omega, hlen⟩
  have hw : works s (.step p { events := 1 }) = true := by
    simp only [works, hpc, Pc.works]
    rfl
  have hn : (next cfg s (.step p { events := 1 })).isSome := by
    simp only [next, hpc, threadStep, blockedStep, if_pos hmay]
    rfl
  obtain ⟨s', hn⟩ := Option.isSome_iff_exists.mp hn
  exact hrest (.step p { events := 1 }) s' ⟨⟨trivial, rfl, trivial⟩, hw⟩ hn

/-- Submitters that cannot go on are in front of the semaphore. -/
theorem rests_submit {q : SubmitPc} (hpc : s.pc t = .submit q)
    (hrest : Rests (next cfg) Productive s) :
    (∃ a, q = .acquire a) ∧ cfg.useSemaphore = true ∧ s.ioSpace = 0 := by
  -- what the kernel rejects is work as well
  have hnone : ∀ ans : Answer, ans.throws = false → ans.interrupted = false →
      submitStep cfg s t ans q = none := by
    intro ans hthrows hintr
    have hw : works s (.step t ans) = true := by
      simp only [works, hpc, Pc.works, hintr, Bool.not_false]
    have hn : next cfg s (.step t ans) = submitStep cfg s t ans q := by
      simp only [next, hpc, threadStep]
    rw [Option.eq_none_iff_forall_ne_some]
    intro s' hs'
    exact hrest (.step t ans) s' ⟨⟨trivial, hthrows, trivial⟩, hw⟩ (hn.trans hs')
  have hrejected := hnone { ioSubmit := -1 } rfl rfl
  cases q with
  | acquire a =>
    refine ⟨⟨a, rfl⟩, ?_⟩
    simp only [submitStep] at hrejected
    cases hsem : cfg.useSemaphore with
    | false => simp [hsem] at hrejected
    | true => simpa [hsem] using hrejected
  | getIOCB a =>
    simp only [submitStep] at hrejected
    split at hrejected <;> cases hrejected
  | prep a b => cases hrejected
  | ioSubmit a b => cases hrejected
  | deleteRef b errno => cases hrejected
  | putIOCB b errno => cases hrejected

omit [DecidableEq Tid] in
/-- With one poller, at its read, the others are outside or in front of a lock. -/
theorem Used.outside {f : Frame} (h : Used cfg s) (hpc : s.pc p = .blocked (.getEvents f))
    (t : Tid) : (∃ o, s.pc t = .idle o) ∨ (∃ q, s.pc t = .submit q) ∨
      (s.pc t).inBatch = false ∧ ∃ q, s.pc t = .blocked q := by
  have hholder := h.delivery.locked.holder p (by rw [hpc]; rfl)
  rcases hq : s.pc t with o | q | q | q | q
  · exact .inl ⟨o, rfl⟩
  · exact .inr (.inl ⟨q, rfl⟩)
  · refine .inr (.inr ⟨?_, q, rfl⟩)
    cases q with
    | event f' st =>
      have ht := h.delivery.locked.holder t (by rw [hq]; rfl)
      obtain rfl := Option.some.inj (hholder.symm.trans ht)
      rw [hpc] at hq
      cases hq
    | _ => rfl
  · exact absurd hq (h.delivery.locked.blocked t q)
  · have hout := h.unclosed.outside t
    rw [hq] at hout
    cases hout

/-- **Where no work is possible, nothing is left to do.** -/
theorem Used.quiet_of_rests (h : Used cfg s) (hq : 0 < cfg.queueSize)
    (hp : (s.pc p).inLoop = true) (hrest : Rests (next cfg) Productive s) : Quiet cfg s := by
  obtain ⟨f, hpc⟩ := rests_poller hp hrest
  have hi := rests_kernel hrest
  have hr := rests_ring hq hpc hrest
  -- the poller waits in front of its read, so no thread has a request or an iocb at hand
  have hnone : ∀ t, (s.pc t).holds s.events = [] ∧ (s.pc t).phases s.events = [] := by
    intro t
    rcases h.outside hpc t with ⟨o, ht⟩ | ⟨q, ht⟩ | ⟨hbatch, q, ht⟩
    · rw [ht]
      exact ⟨rfl, rfl⟩
    · obtain ⟨⟨a, rfl⟩, -⟩ := rests_submit ht hrest
      rw [ht]
      exact ⟨rfl, rfl⟩
    · rw [ht] at hbatch ⊢
      cases q with
      | event f st => cases hbatch
      | _ => exact ⟨rfl, rfl⟩
  refine ⟨hi, hr, fun o a ho => ?_, ?_, fun t q ht => rests_submit ht hrest⟩
  · rcases h.cases ho with (hne | hne) | ⟨t, hat⟩ | hrep
    · exact absurd hi hne
    · exact absurd hr hne
    · rw [State.AtHand, (hnone t).2] at hat
      cases hat
    · exact hrep
  · rw [Finset.eq_empty_iff_forall_notMem]
    intro b hb
    obtain ⟨q, hmem⟩ := h.kept b hb
    cases q with
    | none =>
      rw [State.holders, hi, hr] at hmem
      cases hmem
    | some t =>
      have hmem' : b ∈ (s.pc t).holds s.events := hmem
      rw [(hnone t).1] at hmem'
      cases hmem'

/-! ### Permits -/

def Pc.fails : Pc → Bool
  | .submit (.putIOCB _ _) => true
  | _ => false

/-- A submission ends with the error of `io_submit`. -/
def fails (s : State Tid) : Label Tid → Bool
  | .step t _ => (s.pc t).fails
  | _ => false

section Permits

variable [Fintype Tid]

/-- The permits that are there, with a submission, or to be released by a poller. -/
def State.permits (s : State Tid) : ℤ :=
  s.ioSpace + ∑ u, (s.pc u).carries + s.accepted.length - s.releases.length

theorem State.permits_move {w : ℤ} (hstay : ∀ u, u ≠ t → s'.pc u = s.pc u)
    (heq : s'.ioSpace + (s'.pc t).carries + s'.accepted.length + w + s.releases.length
      = s.ioSpace + (s.pc t).carries + s.accepted.length + s'.releases.length) :
    s'.permits + w = s.permits := by
  have hsum : ∑ u, (s'.pc u).carries
      = ∑ u, (s.pc u).carries - (s.pc t).carries + (s'.pc t).carries :=
    sum_shares t fun u hu => by rw [hstay u hu]
  rw [State.permits, State.permits]
  omega

/-- What is needed to count permits. -/
structure Counted (cfg : Config) (s : State Tid) : Prop where
  used : Used cfg s
  sole : SoleCloser s
  cover : PermitsCover cfg s

theorem Counted.step (h : Counted cfg s) (hsem : cfg.useSemaphore = true)
    (hq : 0 < cfg.queueSize) (hl : InUse s l) (hn : next cfg s l = some s') :
    Counted cfg s' := by
  have hbefore : BeforeSentinel s l := by
    cases l with
    | step t ans =>
      intro hpc
      have hout := h.used.unclosed.outside t
      rw [hpc] at hout
      cases hout
    | _ => trivial
  exact ⟨h.used.step hl hn, h.sole.step hn, h.cover.step h.sole hsem hq hbefore hn⟩

/-- **A permit is lost with every submission that fails**, and with nothing else. -/
theorem Counted.permits_step (h : Counted cfg s) (hsem : cfg.useSemaphore = true)
    (hl : InUse s l) (hn : next cfg s l = some s') :
    s'.permits + (if fails s l then 1 else 0) = s.permits := by
  cases next_moves hn with
  | call t o m _ hpc hm =>
    cases hm with
    | pollInto callbacks min max => exact hl.1.elim
    | closeAgain _ | close _ => exact hl.1.elim
    | _ =>
      apply State.permits_move (next_pc_others hn rfl)
      simp [State.goto, State.releases, Pc.carries, fails, hpc]
  | submit t ans q _ hpc hm =>
    cases hm with
    | unlimited a hno =>
      rw [hsem] at hno
      cases hno
    | noSpace a hg =>
      -- who has a permit finds an iocb
      have hheld : 0 < s.held cfg t := by simp [State.held, hpc]
      exact absurd hg (h.cover.getIOCB_ne_none hheld)
    | acquired a _ _ _ | accepted a b _ _ =>
      apply State.permits_move (next_pc_others hn rfl)
      simp [State.goto, State.accept, State.releases, Pc.carries, fails, Pc.fails, hpc]
      omega
    | _ =>
      apply State.permits_move (next_pc_others hn rfl)
      simp [State.goto, State.handOut, State.setIocb, State.deleteRef, State.putBack,
        State.releases, Pc.carries, fails, Pc.fails, hpc] <;> omega
  | blocked t ans q _ hpc hm =>
    cases hm with
    | readInterrupted f _ => simp [fails, Pc.fails, hpc]
    | event f st _ hm =>
      -- no callback has thrown, so the permit of every request is released
      have hpend : f.pending = false := by
        have hun := h.used.delivery.coherent.untroubled t
        rwa [hpc] at hun
      cases hm with
      | doneSkipped obj hskip =>
        rw [hpend] at hskip
        cases hskip
      | doneThrew obj hthrow =>
        have hthrows : ans.throws = false := hl.2.1
        rw [hthrows] at hthrow
        cases hthrow
      | stopped => exact absurd hpc h.used.not_stop
      | warned => exact absurd hpc h.used.not_warn
      | notReleased obj hno =>
        rw [hsem] at hno
        cases hno
      | released obj _ =>
        apply State.permits_move (next_pc_others hn rfl)
        simp [State.goto, State.record, State.releases, Obs.released?, Pc.carries, fails,
          Pc.fails, hpc]
        omega
      | _ =>
        apply State.permits_move (next_pc_others hn rfl)
        simp [State.goto, State.record, State.putBack, State.setIocb, State.deleteRef,
          State.releases, Obs.released?, Pc.carries, fails, Pc.fails, hpc]
    | read f k _ _ =>
      have hnone : ((s.ring.take k).map fun e => Obs.reaped e.op).filterMap Obs.released? = [] := by
        rw [List.filterMap_map]
        exact List.filterMap_eq_nil_iff.mpr fun _ _ => rfl
      apply State.permits_move (next_pc_others hn rfl)
      simp only [State.goto, State.getEvents, State.releases, List.filterMap_append, hnone,
        Function.update_self, hpc, Pc.carries, fails, Pc.fails, List.append_nil]
      simp
    | _ =>
      apply State.permits_move (next_pc_others hn rfl)
      simp [State.goto, State.releases, Pc.carries, fails, Pc.fails, hpc]
  | poll t ans q _ hpc hm => exact absurd hpc (h.used.delivery.locked.blocked t q)
  | close t ans q _ hpc hm =>
    have hout := h.used.unclosed.outside t
    rw [hpc] at hout
    cases hout
  | complete k res r hr _ =>
    simp [State.permits, State.complete, State.releases, Obs.released?, fails]
  | redeliver k ev _ => exact hl.1.elim
  | setForceSyscall value => exact hl.1.elim
  | closeDumbHandlers => exact hl.1.elim

omit [DecidableEq Tid] in
/-- In a quiet context the permits that are left are all in the semaphore. -/
theorem Quiet.permits_eq (h : Quiet cfg s) (hused : Used cfg s)
    (hsem : cfg.useSemaphore = true) : s.permits = s.ioSpace := by
  have hcarries : ∀ t, (s.pc t).carries = 0 := by
    intro t
    rcases ht : s.pc t with _ | q | _ | _ | _
    · rfl
    · obtain ⟨⟨a, rfl⟩, -⟩ := h.submitters t q ht
      rfl
    · rfl
    · rfl
    · rfl
  -- the permits of all requests have been released, each of them once
  have hall : s.releases.toFinset = Finset.range s.accepted.length := by
    apply Finset.Subset.antisymm hused.delivery.coherent.releases_subset
    intro o ho
    have hlt := Finset.mem_range.mp ho
    cases hg : s.accepted[o] with
    | stop fd => exact absurd (hg ▸ List.getElem_mem hlt) (hused.unclosed.accepted fd)
    | user a =>
      obtain ⟨res, hrep⟩ := h.reported o a (by rw [List.getElem?_eq_getElem hlt, hg])
      have hmem : Obs.released o ∈ about Obs.op? o s.log := by
        rw [hrep]
        simp [report, hsem]
      exact List.mem_toFinset.mpr (State.mem_releases.mpr (List.mem_filter.mp hmem).1)
  have hlen : s.releases.length = s.accepted.length := by
    have hcard := List.toFinset_card_of_nodup hused.delivery.coherent.releases_nodup
    rw [hall, Finset.card_range] at hcard
    exact hcard.symm
  rw [State.permits, Finset.sum_congr rfl fun u _ => hcarries u, hlen]
  simp

end Permits

/-! ### Progress -/

/-- A write is rejected by the kernel and a second one accepted; a poller is about to
read. -/
def rejectedThenAccepted : List (Label Bool) :=
  [.call false (.submit ⟨.pwrite, 5, 0, 512, some 1⟩)] ++ steps false 3 ++
    [.step false { ioSubmit := -11 }] ++ steps false 2 ++
    submits false ⟨.pwrite, 5, 512, 512, some 2⟩ ++ [.call true .poll, .step true {}]

end ArtemisNative
