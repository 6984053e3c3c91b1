/-
ArtemisNative/Detector.lean

The detector of duplicate events.

What `blockedPoll` does for a request is, in this order: `onError` if the request failed,
`putIOCB`, `done`, and the release of a permit.  `Detected` says that a repeated event adds
nothing to it: each happens at most once, for a request that has been completed and with its
own callback, and no iocb in flight is in the pool.

This holds in every run in which the poller recognises repetitions (`detected`).  The proof
follows the report of each request through the log (`Settling`); that the iocb of a new event
is the one of its request is seen in the mirror, the state of a run without repetitions.

The detector misses a repetition when the iocb has been prepared again by then
(`missed_by_reuse`): the only trace of the event is `data`, and that belongs to the next
request from `putIOCB` on.
-/
import ArtemisNative.Mirror

namespace ArtemisNative

open Transition

variable {Tid : Type} [DecidableEq Tid] {cfg : Config} {x x' : State Tid} {t p : Tid}
variable {ans : Answer} {l : Label Tid} {m : Mirror} {env : Process} {o n : ℕ} {res : ℤ}

/-! ### What a repeated event must not add to -/

/-- The request whose completion an observation is, or for which the poller calls, puts
back an iocb or releases a permit. -/
def Obs.settles? : Obs → Option ℕ
  | .completed o _ | .onError o _ _ | .putBack o | .done o _ | .released o => some o
  | _ => none

/-- What the poller does for a completed request. -/
def settlement (a : Submission) (o : ℕ) (res : ℤ) : List Obs :=
  [.onError o a.callback (-res), .putBack o, .done o a.callback, .released o]

theorem settles?_of_mem {a : Submission} {ob : Obs} (h : ob ∈ settlement a o res) :
    ob.settles? = some o := by
  simp only [settlement, List.mem_cons, List.not_mem_nil, or_false] at h
  rcases h with rfl | rfl | rfl | rfl <;> rfl

/-- The request has been completed, and then some of the first `n` things were done
for it. -/
def State.Settles (x : State Tid) (o : ℕ) (res : ℤ) (n : ℕ) : Prop :=
  ∃ a L, x.accepted[o]? = some (.user a) ∧ about Obs.settles? o x.log = .completed o res :: L ∧
    L.Sublist ((settlement a o res).take n)

/-- Nothing is done for a request but once, and after its completion; and what is in
flight is not in the pool. -/
structure Detected (cfg : Config) (x : State Tid) : Prop where
  reports : ∀ o, about Obs.settles? o x.log = [] ∨
    ∃ a res L, x.accepted[o]? = some (.user a) ∧
      about Obs.settles? o x.log = .completed o res :: L ∧
      L.Sublist (settlement a o res)
  pool : ∀ r ∈ x.inflight, r.obj ∉ x.pool.free cfg.queueSize x.pool.used.toNat

/-! ### The report of a request in the log -/

/-- How many of these things the poller may have done for the event at hand. -/
def Stage.settled : Stage → ℕ
  | .take | .put _ => 1
  | .done _ => 2
  | .inDone _ | .release _ => 3
  | .deleteRef _ => 4
  | .test | .stop | .sync | .onError | .warn => 0

theorem Stage.settled_le (st : Stage) : st.settled ≤ 4 := by
  cases st <;> simp [Stage.settled]

structure Settling (p : Tid) (x : State Tid) : Prop where
  unknown : ∀ o, o ∉ x.delivered.map (·.op) → about Obs.settles? o x.log = []
  waiting : ∀ e ∈ x.delivered, e.op ∉ x.seen p →
    about Obs.settles? e.op x.log = [.completed e.op e.res]
  hand : ∀ f st, x.pc p = .blocked (.event f st) →
    st.Answers ((x.events f.i).op ∈ x.handled) →
    x.Settles (x.events f.i).op (x.events f.i).res st.settled
  handled : ∀ o ∈ x.handled, ∃ res, x.Settles o res 4

omit [DecidableEq Tid] in
theorem State.Settles.mono {n' : ℕ} (h : x.Settles o res n) (hn : n ≤ n')
    (hacc : x.accepted <+: x'.accepted)
    (hlog : about Obs.settles? o x'.log = about Obs.settles? o x.log) : x'.Settles o res n' := by
  obtain ⟨a, L, ha, habout, hsub⟩ := h
  refine ⟨a, L, ?_, hlog.trans habout, hsub.trans (List.take_sublist_take_left hn)⟩
  obtain ⟨rest, hrest⟩ := hacc
  obtain ⟨hlt, ha⟩ := List.getElem?_eq_some_iff.mp ha
  rw [← hrest, List.getElem?_append_left hlt, List.getElem?_eq_getElem hlt, ha]

omit [DecidableEq Tid] in
/-- The next thing is done for a request. -/
theorem State.Settles.say {ob : Obs} {a : Submission} (h : x.Settles o res n)
    (ha : x.accepted[o]? = some (.user a)) (hob : (settlement a o res)[n]? = some ob)
    (hacc : x'.accepted = x.accepted) (hlog : x'.log = x.log ++ [ob]) :
    x'.Settles o res (n + 1) := by
  have hself : about Obs.settles? o [ob] = [ob] := by
    refine about_eq_self fun ob' hob' => ?_
    rw [List.mem_singleton.mp hob']
    exact settles?_of_mem (List.mem_of_getElem? hob)
  obtain ⟨a', L, ha', habout, hsub⟩ := h
  obtain rfl := Origin.user.inj (Option.some.inj (ha'.symm.trans ha))
  refine ⟨a', L ++ [ob], hacc ▸ ha', ?_, ?_⟩
  · rw [hlog, about_append, habout, hself, List.cons_append]
  · obtain ⟨hlt, rfl⟩ := List.getElem?_eq_some_iff.mp hob
    rw [List.take_succ_eq_append_getElem hlt]
    exact hsub.append (.refl _)

theorem Obs.putBack?_eq_none {ob : Obs} (h : ob.settles? = none) : ob.putBack? = none := by
  cases ob with
  | putBack o => cases h
  | _ => rfl

omit [DecidableEq Tid] in
/-- Nothing is done for a request. -/
theorem Settling.quiet (obs : List Obs) (h : Settling p x) (hlog : x'.log = x.log ++ obs)
    (hobs : ∀ ob ∈ obs, ob.settles? = none) (hacc : x.accepted <+: x'.accepted)
    (hdel : x'.delivered = x.delivered) (hseen : x.seen p ⊆ x'.seen p)
    (hhand : ∀ f st, x'.pc p = .blocked (.event f st) →
      st.Answers ((x'.events f.i).op ∈ x.handled) →
      x.Settles (x'.events f.i).op (x'.events f.i).res st.settled) : Settling p x' := by
  have hsame : ∀ o, about Obs.settles? o x'.log = about Obs.settles? o x.log := by
    intro o
    have hnil : about Obs.settles? o obs = [] := by
      refine about_eq_nil fun ob hob => ?_
      rw [hobs ob hob]
      nofun
    rw [hlog, about_append, hnil, List.append_nil]
  have hhandled : x'.handled = x.handled := by
    have hnil : obs.filterMap Obs.putBack? = [] :=
      List.filterMap_eq_nil_iff.mpr fun ob hob => ob.putBack?_eq_none (hobs ob hob)
    rw [State.handled_append hlog, hnil, List.append_nil]
  refine ⟨fun o ho => ?_, fun e he hnot => ?_, fun f st hpc hst => ?_, fun o ho => ?_⟩
  · exact (hsame o).trans (h.unknown o (hdel ▸ ho))
  · exact (hsame e.op).trans (h.waiting e (hdel ▸ he) (mt (@hseen _) hnot))
  · exact (hhand f st hpc (hhandled ▸ hst)).mono le_rfl hacc (hsame _)
  · obtain ⟨res, hs⟩ := h.handled o (hhandled ▸ ho)
    exact ⟨res, hs.mono le_rfl hacc (hsame o)⟩

omit [DecidableEq Tid] in
/-- The poller does something for the event at hand. -/
theorem Settling.say {f g : Frame} {st st' : Stage} {ob : Obs} {a : Submission} (h : Settling p x)
    (hm : Mirrors p x m) (hpc : x.pc p = .blocked (.event f st)) (hst : st ≠ .test)
    (hpc' : x'.pc p = .blocked (.event g st')) (hst' : st' ≠ .test) (hi : g.i = f.i)
    (hev : x'.events = x.events) (hacc : x'.accepted = x.accepted)
    (hdel : x'.delivered = x.delivered) (hlog : x'.log = x.log ++ [ob])
    (hans : st.Answers ((x.events f.i).op ∈ x.handled))
    (ha : x.accepted[(x.events f.i).op]? = some (.user a))
    (hob : (settlement a (x.events f.i).op (x.events f.i).res)[st.settled]? = some ob)
    (hnext : st'.settled = st.settled + 1) : Settling p x' := by
  have hop := settles?_of_mem (List.mem_of_getElem? hob)
  have hsettles : x'.Settles (x.events f.i).op (x.events f.i).res st'.settled := by
    rw [hnext]
    exact (h.hand f st hpc hans).say ha hob hacc hlog
  obtain ⟨-, hhand, hseen⟩ := queue_event hpc hst
  obtain ⟨-, -, hseen'⟩ := queue_event hpc' hst'
  rw [hev, hi] at hseen'
  have hother : ∀ o, o ≠ (x.events f.i).op →
      about Obs.settles? o x'.log = about Obs.settles? o x.log := by
    intro o ho
    have hnil : about Obs.settles? o [ob] = [] := by
      refine about_eq_nil fun ob' hob' he => ho ?_
      rw [List.mem_singleton.mp hob', hop] at he
      exact (Option.some.inj he).symm
    rw [hlog, about_append, hnil, List.append_nil]
  have hhandled := State.handled_append hlog
  refine ⟨fun o ho => ?_, fun e he hnot => ?_, fun f' st'' hpc'' hst'' => ?_, fun o ho => ?_⟩
  · rw [hdel] at ho
    refine (hother o ?_).trans (h.unknown o ho)
    rintro rfl
    refine ho (List.mem_map_of_mem (hm.known _ (List.mem_append_left _ ?_)))
    rw [hhand]
    exact List.mem_singleton_self _
  · rw [hdel] at he
    rw [hseen'] at hnot
    obtain ⟨hne, hnot⟩ := not_or.mp (mt List.mem_cons.mpr hnot)
    refine (hother e.op hne).trans (h.waiting e he ?_)
    rw [hseen]
    refine fun hmem => (List.mem_cons.mp hmem).elim hne fun hmem => hnot ?_
    rw [hhandled]
    exact List.mem_append_left _ hmem
  · rw [hpc'] at hpc''
    obtain ⟨rfl, rfl⟩ := BlockedPc.event.inj (Pc.blocked.inj hpc'')
    rw [hev, hi]
    exact hsettles
  · by_cases hne : o = (x.events f.i).op
    · subst hne
      exact ⟨_, hsettles.mono st'.settled_le (List.prefix_refl _) rfl⟩
    · rw [hhandled] at ho
      rcases List.mem_append.mp ho with ho | ho
      · obtain ⟨res, hs⟩ := h.handled o ho
        exact ⟨res, hs.mono le_rfl (hacc ▸ List.prefix_refl _) (hother o hne)⟩
      · obtain ⟨ob', hob', hput⟩ := List.mem_filterMap.mp ho
        rw [List.mem_singleton.mp hob'] at hput
        cases ob with
        | putBack o' =>
          obtain rfl := Option.some.inj hput
          exact absurd (Option.some.inj hop) hne
        | _ => cases hput

/-! ### Every step keeps it -/

omit [DecidableEq Tid] in
/-- The event at hand has been handled, or the mirror is at the same place. -/
theorem Mirrors.event_cases {f : Frame} {st : Stage} (h : Mirrors p x m)
    (hpc : x.pc p = .blocked (.event f st)) (hst : st ≠ .test) :
    st.skips = true ∧ (x.events f.i).op ∈ x.handled ∨
    ∃ f', m.pc = .blocked (.event f' st) ∧ f'.i = 0 ∧ m.events 0 = x.events f.i ∧
      st.Answers ((x.events f.i).op ∈ x.handled) := by
  have hfol := h.follows
  rw [hpc] at hfol
  generalize hmp : m.pc = q at hfol
  cases hfol with
  | test _ _ _ => exact absurd rfl hst
  | repeated _ _ _ _ hskips hold => exact .inl ⟨hskips, hold⟩
  | fresh _ f' _ _ hi _ hev hans => exact .inr ⟨f', rfl, hi, hev, hans⟩

omit [DecidableEq Tid] in
/-- The poller goes on with the event at hand and does nothing for its request. -/
theorem Settling.go {f g : Frame} {st st' : Stage} (obs : List Obs) (h : Settling p x)
    (hpc : x.pc p = .blocked (.event f st)) (hpc' : x'.pc p = .blocked (.event g st'))
    (hst : st ≠ .test) (hst' : st' ≠ .test) (hi : g.i = f.i) (hev : x'.events = x.events)
    (hacc : x'.accepted = x.accepted) (hdel : x'.delivered = x.delivered)
    (hlog : x'.log = x.log ++ obs) (hobs : ∀ ob ∈ obs, ob.settles? = none)
    (hans : st'.Answers ((x.events f.i).op ∈ x.handled) →
      st.Answers ((x.events f.i).op ∈ x.handled) ∧ st.settled ≤ st'.settled) : Settling p x' := by
  obtain ⟨-, -, hseen⟩ := queue_event hpc hst
  obtain ⟨-, -, hseen'⟩ := queue_event hpc' hst'
  refine h.quiet obs hlog hobs (hacc ▸ List.prefix_refl _) hdel ?_ fun f' st'' hpc'' hst'' => ?_
  · rw [hseen, hseen', hev, hi, State.handled_append hlog]
    exact List.cons_subset_cons _ (List.subset_append_left _ _)
  · rw [hpc'] at hpc''
    obtain ⟨rfl, rfl⟩ := BlockedPc.event.inj (Pc.blocked.inj hpc'')
    rw [hev, hi] at hst'' ⊢
    obtain ⟨hold, hle⟩ := hans hst''
    exact (h.hand f st hpc hold).mono hle (List.prefix_refl _) rfl

omit [DecidableEq Tid] in
theorem Settling.stay {f g : Frame} {st st' : Stage} (h : Settling p x)
    (hpc : x.pc p = .blocked (.event f st)) (hpc' : x'.pc p = .blocked (.event g st'))
    (hst : st ≠ .test) (hst' : st' ≠ .test) (hi : g.i = f.i) (hev : x'.events = x.events)
    (hacc : x'.accepted = x.accepted) (hdel : x'.delivered = x.delivered) (hlog : x'.log = x.log)
    (hans : st'.Answers ((x.events f.i).op ∈ x.handled) →
      st.Answers ((x.events f.i).op ∈ x.handled) ∧ st.settled ≤ st'.settled) : Settling p x' :=
  h.go [] hpc hpc' hst hst' hi hev hacc hdel (hlog.trans (List.append_nil _).symm)
    (List.forall_mem_nil _) hans

omit [DecidableEq Tid] in
/-- The poller is done with the event at hand. -/
theorem Settling.leave {f g : Frame} {st : Stage} (obs : List Obs) (h : Settling p x)
    (hpc : x.pc p = .blocked (.event f st)) (hpc' : x'.pc p = .blocked (.event g .test))
    (hst : st ≠ .test) (hacc : x'.accepted = x.accepted) (hdel : x'.delivered = x.delivered)
    (hlog : x'.log = x.log ++ obs) (hobs : ∀ ob ∈ obs, ob.settles? = none)
    (hold : (x.events f.i).op ∈ x.handled) : Settling p x' := by
  obtain ⟨-, -, hseen⟩ := queue_event hpc hst
  obtain ⟨-, -, hseen'⟩ := queue_test hpc'
  refine h.quiet obs hlog hobs (hacc ▸ List.prefix_refl _) hdel ?_ fun f' st' hpc'' hst' => ?_
  · rw [hseen, hseen', State.handled_append hlog]
    refine List.Subset.trans ?_ (List.subset_append_left _ _)
    exact List.cons_subset.mpr ⟨hold, List.Subset.refl _⟩
  · rw [hpc'] at hpc''
    obtain ⟨rfl, rfl⟩ := BlockedPc.event.inj (Pc.blocked.inj hpc'')
    exact hst'.elim

omit [DecidableEq Tid] in
/-- Outside the loop over a batch the poller is at no event. -/
theorem Settling.outside {q : BlockedPc} {r : Pc} (obs : List Obs) (h : Settling p x)
    (hpc : x.pc p = .blocked q) (hpc' : x'.pc p = r)
    (hhand : (Pc.blocked q).atHand x.events = [])
    (hr : ∀ f st, r = .blocked (.event f st) → st = .test) (hacc : x'.accepted = x.accepted)
    (hdel : x'.delivered = x.delivered) (hlog : x'.log = x.log ++ obs)
    (hobs : ∀ ob ∈ obs, ob.settles? = none) : Settling p x' := by
  refine h.quiet obs hlog hobs (hacc ▸ List.prefix_refl _) hdel ?_ fun f st hpc'' hst => ?_
  · rw [State.seen, hpc, hhand, State.seen, State.handled_append hlog]
    exact List.Subset.trans (List.subset_append_left _ _) (List.subset_append_right _ _)
  · obtain rfl := hr f st (hpc'.symm.trans hpc'')
    exact hst.elim

theorem mirror_hand {f : Frame} {obj : IocbData} (hmp : m.pc = .blocked (.event f (.done obj))) :
    ((x.mirror p m).view p).hand = some ((m.events f.i).op, obj) := by
  rw [State.view, mirror_pc_self, hmp]
  rfl

theorem Settling.event {f : Frame} {st : Stage} (h : Settling p x) (hx : Plain p x)
    (hm : Mirrors p x m) (hmat : Matched (x.mirror p m)) (hrec : Recognised x (.step p ans))
    (hpc : x.pc p = .blocked (.event f st)) (hmv : EventMoves cfg x p ans f st x') :
    Settling p x' := by
  -- the event at hand is one of a request
  have hmem : st ≠ .test → x.events f.i ∈ x.delivered := by
    intro hst
    refine hm.known _ (List.mem_append_left _ ?_)
    rw [(queue_event hpc hst).2.1]
    exact List.mem_singleton_self _
  cases hmv with
  | isStop hlt hfd =>
    obtain ⟨-, -, hseen⟩ := queue_test hpc
    refine h.quiet [] (List.append_nil _).symm nofun (List.prefix_refl _) rfl ?_ ?_
    · rw [hseen]
      exact List.subset_append_right _ _
    · intro f' st' hpc' hst'
      rw [State.pc_goto] at hpc'
      obtain ⟨rfl, rfl⟩ := BlockedPc.event.inj (Pc.blocked.inj hpc')
      exact hst'.elim
  | isEvent hlt hfd =>
    obtain ⟨hqueue, -, hseen⟩ := queue_test hpc
    have hmem : x.events f.i ∈ x.delivered := by
      refine hm.known _ (List.mem_append_right _ ?_)
      rw [hqueue, eventsFrom_of_lt hlt]
      exact List.mem_cons_self
    refine h.quiet [] (List.append_nil _).symm nofun (List.prefix_refl _) rfl ?_ ?_
    · rw [hseen]
      exact List.subset_append_right _ _
    · intro f' st' hpc' hst'
      rw [State.pc_goto] at hpc'
      obtain ⟨rfl, rfl⟩ := BlockedPc.event.inj (Pc.blocked.inj hpc')
      obtain ⟨a, ha⟩ := hx.accepted hmem
      exact ⟨a, [], ha, h.waiting _ hmem (hseen ▸ hst'), .slnil⟩
  | batchEnd hle =>
    obtain ⟨-, -, hseen⟩ := queue_test hpc
    refine h.quiet [] (List.append_nil _).symm nofun (List.prefix_refl _) rfl ?_ ?_
    · rw [hseen]
      exact List.subset_append_right _ _
    · intro f' st' hpc' hst'
      rw [State.pc_goto] at hpc'
      cases hpc'
  | stopped =>
    rcases hm.event_cases hpc nofun with ⟨hskips, -⟩ | ⟨f', -, -, -, hst⟩
    · cases hskips
    · exact hst.elim
  | synced hsync hfd =>
    exact h.go _ hpc (State.pc_goto _ _ _) nofun nofun rfl rfl rfl rfl rfl
      (List.forall_mem_singleton.mpr rfl) fun hst => ⟨hst, le_rfl⟩
  | notSynced _ | taken _ =>
    exact h.stay hpc (State.pc_goto _ _ _) nofun nofun rfl rfl rfl rfl rfl fun hst => ⟨hst, le_rfl⟩
  | noError _ | errorNull _ _ | errorSkipped _ _ _ =>
    exact h.stay hpc (State.pc_goto _ _ _) nofun nofun rfl rfl rfl rfl rfl
      fun hst => ⟨hst, Nat.zero_le _⟩
  | takenNull _ =>
    exact h.stay hpc (State.pc_goto _ _ _) nofun nofun rfl rfl rfl rfl rfl fun hst => hst.elim
  | doneSkipped obj _ | doneThrew obj _ | notReleased obj _ =>
    exact h.stay hpc (State.pc_goto _ _ _) nofun nofun rfl rfl rfl rfl rfl
      fun hst => ⟨hst, Stage.settled_le _⟩
  | errorCalled hres hnull =>
    rcases hm.event_cases hpc nofun with ⟨-, hold⟩ | ⟨f', hmp, hi, hev, hst⟩
    · exact absurd (hrec.onError hpc hres hold) hnull
    · obtain ⟨a, ha⟩ := hx.accepted (hmem nofun)
      obtain ⟨g, hg, hdata, -⟩ := Mirrors.fits hmat hmp (.inr (.inl rfl)) hi hev
      obtain rfl := Option.some.inj (hg.symm.trans ha)
      refine h.say hm hpc nofun (State.pc_goto _ _ _) nofun rfl rfl rfl rfl rfl hst ha ?_ rfl
      rw [hdata.deref]
      rfl
  | put obj =>
    rcases hm.event_cases hpc nofun with ⟨hskips, -⟩ | ⟨f', -, -, -, hst⟩
    · cases hskips
    · obtain ⟨a, ha⟩ := hx.accepted (hmem nofun)
      exact h.say hm hpc nofun (State.pc_goto _ _ _) nofun rfl rfl rfl rfl rfl hst ha rfl rfl
  | doneCalled obj =>
    rcases hm.event_cases hpc nofun with ⟨hskips, -⟩ | ⟨f', hmp, hi, hev, hst⟩
    · cases hskips
    · obtain ⟨a, ha⟩ := hx.accepted (hmem nofun)
      obtain ⟨g, hg, hdata⟩ := hmat.hand p _ _ (mirror_hand hmp)
      rw [hi, hev] at hg
      obtain rfl := Option.some.inj (hg.symm.trans ha)
      refine h.say hm hpc nofun (State.pc_goto _ _ _) nofun rfl rfl rfl rfl rfl hst ha ?_ rfl
      have hderef : x.refs.deref obj = a.callback := hdata.deref
      rw [hderef]
      rfl
  | doneReturned obj hthrow =>
    exact h.go _ hpc (State.pc_goto _ _ _) nofun nofun rfl rfl rfl rfl rfl
      (List.forall_mem_singleton.mpr rfl) fun hst => ⟨hst, le_rfl⟩
  | released obj hsem =>
    rcases hm.event_cases hpc nofun with ⟨hskips, -⟩ | ⟨f', -, -, -, hst⟩
    · cases hskips
    · obtain ⟨a, ha⟩ := hx.accepted (hmem nofun)
      exact h.say hm hpc nofun (State.pc_goto _ _ _) nofun rfl rfl rfl rfl rfl hst ha rfl rfl
  | refDeleted obj =>
    rcases hm.event_cases hpc nofun with ⟨hskips, -⟩ | ⟨f', -, -, -, hst⟩
    · cases hskips
    · exact h.leave [] hpc (State.pc_goto _ _ _) nofun rfl rfl (List.append_nil _).symm nofun hst
  | warned =>
    rcases hm.event_cases hpc nofun with ⟨-, hold⟩ | ⟨f', -, -, -, hst⟩
    · exact h.leave _ hpc (State.pc_goto _ _ _) nofun rfl rfl rfl
        (List.forall_mem_singleton.mpr rfl) hold
    · exact hst.elim

theorem Settling.aside (h : Settling p x) (ha : Aside t x x') : Settling p x' := by
  obtain ⟨q, hpc, hq⟩ := ha.pc
  have hlog : x'.log = x.log ++ [] := ha.log.trans (List.append_nil _).symm
  rcases pc_cases hpc p with ⟨rfl, hp⟩ | ⟨-, hp⟩
  · refine h.quiet [] hlog (List.forall_mem_nil _) ha.accepted ha.delivered ?_ fun f st hpc' => ?_
    · rw [State.seen, ha.outside.rest.2, State.seen, hp, hq.rest.2, ha.handled]
      exact List.Subset.refl _
    · rw [hp] at hpc'
      rw [hpc'] at hq
      exact hq.elim
  · refine h.quiet [] hlog (List.forall_mem_nil _) ha.accepted ha.delivered ?_ fun f st hpc' => ?_
    · rw [State.seen, State.seen, hp, ha.events, ha.handled]
      exact List.Subset.refl _
    · rw [hp] at hpc'
      rw [ha.events]
      exact h.hand f st hpc'

theorem Settling.blocked {q : BlockedPc} (h : Settling p x) (hx : Plain p x)
    (hm : Mirrors p x m) (hmat : Matched (x.mirror p m)) (hrec : Recognised x (.step p ans))
    (hpc : x.pc p = .blocked q) (hmv : BlockedMoves cfg x p ans q x') : Settling p x' := by
  cases hmv with
  | locked _ | readFailed f _ | unlocked o =>
    exact h.outside [] hpc (State.pc_goto _ _ _) rfl nofun rfl rfl (List.append_nil _).symm nofun
  | readInterrupted f _ => exact h
  | read f k _ _ =>
    refine h.outside _ hpc (State.pc_goto _ _ _) rfl ?_ rfl rfl rfl ?_
    · intro f' st he
      exact (BlockedPc.event.inj (Pc.blocked.inj he)).2.symm
    · intro ob hob
      obtain ⟨e, -, rfl⟩ := List.mem_map.mp hob
      rfl
  | event f st _ hmv => exact h.event hx hm hmat hrec hpc hmv

omit [DecidableEq Tid] in
theorem Settling.complete {k : ℕ} {r : Request} (h : Settling p x) (hx : Plain p x)
    (hm : Mirrors p x m) (hr : x.inflight[k]? = some r) :
    Settling p (x.complete k ⟨r.obj, res, r.op⟩) := by
  have hnew := hx.not_delivered hr
  have hhandled : (x.complete k ⟨r.obj, res, r.op⟩).handled = x.handled :=
    (State.handled_append rfl).trans (List.append_nil _)
  have hseen : (x.complete k ⟨r.obj, res, r.op⟩).seen p = x.seen p := by
    rw [State.seen, hhandled]
    rfl
  have hlog : ∀ o, about Obs.settles? o (x.complete k ⟨r.obj, res, r.op⟩).log =
      about Obs.settles? o x.log ++ about Obs.settles? o [.completed r.op res] := fun o =>
    about_append _ _ _ _
  have hother : ∀ o, o ≠ r.op → about Obs.settles? o (x.complete k ⟨r.obj, res, r.op⟩).log =
      about Obs.settles? o x.log := by
    intro o ho
    have hnil : about Obs.settles? o [.completed r.op res] = [] := by
      refine about_eq_nil fun ob hob he => ho ?_
      rw [List.mem_singleton.mp hob] at he
      exact (Option.some.inj he).symm
    rw [hlog, hnil, List.append_nil]
  have hold : ∀ o ∈ x.delivered.map (·.op), o ≠ r.op := fun o ho he => hnew (he ▸ ho)
  refine ⟨fun o ho => ?_, fun e he hnot => ?_, fun f st hpc hst => ?_, fun o ho => ?_⟩
  · have hsplit : (x.complete k ⟨r.obj, res, r.op⟩).delivered.map (·.op) =
        x.delivered.map (·.op) ++ [r.op] := List.map_append
    rw [hsplit, List.mem_append, not_or, List.mem_singleton] at ho
    exact (hother o ho.2).trans (h.unknown o ho.1)
  · rw [hseen] at hnot
    rcases List.mem_append.mp he with he | he
    · exact (hother e.op (hold _ (List.mem_map_of_mem he))).trans (h.waiting e he hnot)
    · obtain rfl := List.mem_singleton.mp he
      rw [hlog, h.unknown r.op hnew, List.nil_append]
      exact about_eq_self fun ob hob => by rw [List.mem_singleton.mp hob]; rfl
  · rw [hhandled] at hst
    refine (h.hand f st hpc hst).mono le_rfl (List.prefix_refl _) (hother _ (hold _ ?_))
    refine List.mem_map_of_mem (hm.known _ (List.mem_append_left _ ?_))
    have hne : st ≠ .test := by
      rintro rfl
      exact hst
    have hhand := (queue_event (x := x) hpc hne).2.1
    exact hhand ▸ List.mem_singleton_self _
  · rw [hhandled] at ho
    obtain ⟨res', hs⟩ := h.handled o ho
    exact ⟨res', hs.mono le_rfl (List.prefix_refl _) (hother o (hold o (hm.old o ho)))⟩

theorem Settling.step (h : Settling p x) (hx : Plain p x) (hm : Mirrors p x m)
    (hmat : Matched (x.mirror p m)) (hl : Repeats p l) (hrec : Recognised x l)
    (hn : next cfg x l = some x') : Settling p x' := by
  cases next_moves hn with
  | call t o meth _ hpc hmv => exact h.aside (hmv.aside hl hpc)
  | submit t ans q _ hpc hmv => exact h.aside (hmv.aside hpc)
  | blocked t ans q _ hpc hmv =>
    have ht := hx.calm t
    rw [hpc] at ht
    obtain rfl : t = p := ht
    exact h.blocked hx hm hmat hrec hpc hmv
  | poll t ans q _ hpc hmv =>
    have ht := hx.calm t
    rw [hpc] at ht
    exact ht.elim
  | close t ans q _ hpc hmv =>
    have ht := hx.calm t
    rw [hpc] at ht
    exact ht.elim
  | complete k res r hr _ => exact h.complete hx hm hr
  | redeliver k ev _ => exact ⟨h.unknown, h.waiting, h.hand, h.handled⟩
  | setForceSyscall value => exact ⟨h.unknown, h.waiting, h.hand, h.handled⟩
  | closeDumbHandlers => exact hl.2.2.1.elim

omit [DecidableEq Tid] in
theorem Settling.initial (env : Process) : Settling p (.initial cfg env : State Tid) where
  unknown := fun _ _ => rfl
  waiting := nofun
  hand := nofun
  handled := nofun

/-! ### What the detector finds -/

/-- A thread that is at an event is in the loop over its batch. -/
theorem Pc.of_mem_atHand {q : Pc} {events : ℕ → IoEvent} {e : IoEvent}
    (he : e ∈ q.atHand events) (hop : e.op = o) :
    ∃ f st, q = .blocked (.event f st) ∧ st ≠ .test ∧ (events f.i).op = o := by
  cases q with
  | blocked q =>
    cases q with
    | event f st =>
      cases st with
      | test => cases he
      | _ =>
        obtain rfl := List.mem_singleton.mp he
        exact ⟨f, _, rfl, nofun, hop⟩
    | _ => cases he
  | _ => cases he

omit [DecidableEq Tid] in
theorem Settling.reports (h : Settling p x) (hx : Plain p x) (hm : Mirrors p x m) (o : ℕ) :
    about Obs.settles? o x.log = [] ∨
    ∃ a res L, x.accepted[o]? = some (.user a) ∧
      about Obs.settles? o x.log = .completed o res :: L ∧ L.Sublist (settlement a o res) := by
  by_cases hdel : o ∈ x.delivered.map (·.op)
  · right
    obtain ⟨e, he, rfl⟩ := List.mem_map.mp hdel
    by_cases hold : e.op ∈ x.handled
    · obtain ⟨res, a, L, ha, hlog, hsub⟩ := h.handled e.op hold
      exact ⟨a, res, L, ha, hlog, hsub⟩
    · by_cases hseen : e.op ∈ x.seen p
      · -- its event is at hand
        obtain ⟨f, st, hpc, hne, hop⟩ : ∃ f st, x.pc p = .blocked (.event f st) ∧ st ≠ .test ∧
            (x.events f.i).op = e.op := by
          have hhand := (List.mem_append.mp hseen).resolve_right hold
          obtain ⟨e', he', hop⟩ := List.mem_map.mp hhand
          exact Pc.of_mem_atHand he' hop
        rcases hm.event_cases hpc hne with ⟨-, hmem⟩ | ⟨f', -, -, -, hst⟩
        · exact absurd (hop ▸ hmem) hold
        · obtain ⟨a, L, ha, hlog, hsub⟩ := h.hand f st hpc hst
          rw [hop] at ha hlog hsub
          exact ⟨a, _, L, ha, hlog, hsub.trans (List.take_sublist _ _)⟩
      · obtain ⟨a, ha⟩ := hx.accepted he
        exact ⟨a, e.res, [], ha, h.waiting e he hseen, List.nil_sublist _⟩
  · exact .inl (h.unknown o hdel)

/-- **The detector misses nothing as long as it is asked in time**: in every run in which
the poller looks into the iocb of a repeated event before that is prepared again, repeated
events add nothing. -/
theorem detected (hq : 0 < cfg.queueSize)
    (hr : Reaches (next cfg) (fun s l => Repeats p l ∧ Recognised s l) (.initial cfg env) x) :
    Detected cfg x := by
  obtain ⟨⟨m, h⟩, hset⟩ := hr.invariant
    (I := fun s => (∃ m, Mirrored cfg p s m) ∧ Settling p s)
    ⟨Mirrored.initial hq p env, .initial env⟩ (by
      rintro s l s' ⟨⟨m, h⟩, hset⟩ ⟨hl, hrec⟩ hn
      exact ⟨h.step hq hl hrec hn, hset.step h.plain h.mirrors h.matched hl hrec hn⟩)
  refine ⟨hset.reports h.plain h.mirrors, fun r hr hfree => ?_⟩
  -- what is in flight is outstanding
  have hout : r.obj ∈ x.outstanding := by
    refine h.owned.custody.subset none _ ?_
    exact List.mem_append_left _ (List.mem_map_of_mem hr)
  have hacc : IocbPool.Accounts cfg.queueSize x.pool x.outstanding x.handed := h.owned.accounts
  rw [hacc.used_eq, Int.toNat_natCast] at hfree
  exact ((hacc.mem_free r.obj).mp hfree).2 hout

/-! ### Two runs -/

omit [DecidableEq Tid] in
instance : DecidablePred (Open : Label Tid → Prop)
  | .call _ .close | .closeDumbHandlers => isFalse id
  | .call _ (.submit _) | .call _ .poll | .call _ (.pollInto _ _ _) | .step _ _ | .complete _ _
  | .redeliver _ | .setForceSyscall _ => isTrue trivial

instance (p : Tid) : DecidablePred (Repeats p) := fun _ =>
  inferInstanceAs (Decidable (_ ∧ _ ∧ _ ∧ _))

omit [DecidableEq Tid] in
instance (x : State Tid) (f : Frame) : Decidable (x.Marked f) :=
  inferInstanceAs (Decidable (_ → _))

omit [DecidableEq Tid] in
instance decidableMarkedAt (x : State Tid) (q : Pc) : Decidable (match q with
    | .blocked (.event f .onError) => (x.events f.i).res < 0 → x.Marked f
    | .blocked (.event f .take) => x.Marked f
    | _ => True) := by
  split <;> infer_instance

omit [DecidableEq Tid] in
instance (x : State Tid) : DecidablePred (Recognised x)
  | .call _ (.submit a) => inferInstanceAs (Decidable (a.fd ≠ x.dumbWriteHandler))
  | .step t _ => inferInstanceAs (Decidable (match x.pc t with
    | .blocked (.event f .onError) => (x.events f.i).res < 0 → x.Marked f
    | .blocked (.event f .take) => x.Marked f
    | _ => True))
  | .call _ .poll | .call _ (.pollInto _ _ _) | .call _ .close | .complete _ _ | .redeliver _
  | .setForceSyscall _ | .closeDumbHandlers => isTrue trivial

/-- Thread `true` writes, the event is delivered twice, and thread `false` handles it
once. -/
def handledOnce : List (Label Bool) :=
  submits true ⟨.pwrite, 5, 0, 512, some 1⟩ ++
    [.complete 0 512, .redeliver 0, .call false .poll, .step false {},
      .step false { events := 1 }] ++ steps false 10

/-- The repetition is read next. -/
theorem detected_repetition : ∃ s : State Bool,
    Reaches (next ⟨1, true, true⟩) (fun s l => Repeats false l ∧ Recognised s l)
      (.sample ⟨1, true, true⟩) s ∧ .warned 0 ∈ s.log ∧ Detected ⟨1, true, true⟩ s := by
  obtain ⟨s, hr, hlog⟩ := exists_of_exec (next ⟨1, true, true⟩)
    (fun s l => Repeats false l ∧ Recognised s l) (.sample ⟨1, true, true⟩)
    (handledOnce ++ [.step false { events := 1 }] ++ steps false 5)
    (fun s => .warned 0 ∈ s.log) (by decide)
  exact ⟨s, hr, hlog, detected (by decide) hr⟩

/-- Thread `true` writes again before the repetition is read: the poller calls the callback
of the write that is in flight, and puts its iocb into the pool. -/
theorem missed_by_reuse : ∃ s : State Bool,
    Reaches (next ⟨1, true, true⟩) (fun _ => Repeats false) (.sample ⟨1, true, true⟩) s ∧
      s.inflight = [⟨0, 1⟩] ∧ .done 0 (some 2) ∈ s.log ∧ ¬Detected ⟨1, true, true⟩ s := by
  obtain ⟨s, hr, hin, hdone, hfree⟩ := exists_of_exec (next ⟨1, true, true⟩)
    (fun _ => Repeats false) (.sample ⟨1, true, true⟩)
    (handledOnce ++ submits true ⟨.pwrite, 5, 512, 512, some 2⟩ ++
      [.step false { events := 1 }] ++ steps false 6)
    (fun s => s.inflight = [⟨0, 1⟩] ∧ .done 0 (some 2) ∈ s.log ∧
      0 ∈ s.pool.free 1 s.pool.used.toNat) (by decide)
  refine ⟨s, hr, hin, hdone, fun h => h.pool ⟨0, 1⟩ ?_ hfree⟩
  rw [hin]
  exact List.mem_singleton_self _

end ArtemisNative
