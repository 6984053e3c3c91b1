/-
ArtemisNative/Batch.lean

A batch in the hands of one thread.

`ringio_get_events` leaves the events of a batch in `control->events`, and the thread that
has read them goes through them one after the other.  As long as it does, no other thread
reads (`Orderly`), so the buffer stays as it is and no other thread is in the loop over a
batch: whatever `blockedPoll` and `poll` put into the log is of this thread (`Holding`).

The events of a batch are of different requests, since the kernel delivers each event once
(`Numbered`).
-/
import ArtemisNative.Durable

namespace ArtemisNative

open Transition

variable {Tid : Type} [DecidableEq Tid] {cfg : Config} {s x x' : State Tid} {t u p : Tid}
variable {ans : Answer} {l : Label Tid} {k : ℕ} {batch : List IoEvent}

/-! ### Steps outside the loop -/

/-- Observations that are made outside the loop over a batch. -/
def Obs.aside : Obs → Bool
  | .completed _ _ | .releasedAll _ => true
  | _ => false

/-- A thread that neither is in the loop over a batch nor reads one says no more. -/
theorem next_aside (hn : next cfg x l = some x')
    (hout : ∀ t ans, l = .step t ans → (x.pc t).inBatch = false ∧ (x.pc t).atRead = false) :
    ∃ obs, x'.log = x.log ++ obs ∧ ∀ ob ∈ obs, ob.aside = true := by
  have hsilent : ∃ obs, x.log = x.log ++ obs ∧ ∀ ob ∈ obs, ob.aside = true :=
    ⟨[], (List.append_nil _).symm, nofun⟩
  have hone : ∀ ob : Obs, ob.aside = true →
      ∃ obs, x.log ++ [ob] = x.log ++ obs ∧ ∀ ob ∈ obs, ob.aside = true := fun ob hob =>
    ⟨[ob], rfl, fun _ h => List.mem_singleton.mp h ▸ hob⟩
  cases next_moves hn with
  | call t o m _ hpc hm => cases hm <;> exact hsilent
  | submit t ans q _ hpc hm => cases hm <;> exact hsilent
  | blocked t ans q _ hpc hm =>
    obtain ⟨hbatch, hread⟩ := hout t ans rfl
    rw [hpc] at hbatch hread
    cases hm with
    | read f k _ _ => cases hread
    | event f st _ hm => cases hbatch
    | _ => exact hsilent
  | poll t ans q _ hpc hm =>
    obtain ⟨hbatch, hread⟩ := hout t ans rfl
    rw [hpc] at hbatch hread
    cases hm with
    | read _ _ _ _ _ _ => cases hread
    | released n callbacks _ _ => exact hone _ rfl
    | threw _ _ | notReleased _ _ _ | readFailed _ _ _ _ => exact hsilent
    | _ => cases hbatch
  | close t ans q _ hpc hm =>
    obtain ⟨hbatch, hread⟩ := hout t ans rfl
    rw [hpc] at hbatch hread
    cases hm with
    | read _ _ _ => cases hread
    | _ => exact hsilent
  | complete k res r hr _ => exact hone _ rfl
  | redeliver k ev _ => exact hsilent
  | setForceSyscall value => exact hsilent
  | closeDumbHandlers => exact hsilent

/-- A thread comes into the loop over a batch by reading it. -/
theorem next_inBatch (hn : next cfg x l = some x') (h : (x'.pc u).inBatch = true) :
    (x.pc u).inBatch = true ∨ (∃ ans, l = .step u ans) ∧ (x.pc u).atRead = true := by
  by_cases hl : l.tid? = some u
  · cases next_moves hn with
    | call t o m _ hpc hm =>
      obtain rfl := Option.some.inj hl
      cases hm <;> (rw [State.pc_goto] at h; cases h)
    | submit t ans q _ hpc hm =>
      obtain rfl := Option.some.inj hl
      cases hm <;> (rw [State.pc_goto] at h; cases h)
    | blocked t ans q _ hpc hm =>
      obtain rfl := Option.some.inj hl
      rw [hpc]
      cases hm with
      | read f k _ _ => exact .inr ⟨⟨ans, rfl⟩, rfl⟩
      | event f st _ hm => exact .inl rfl
      | readInterrupted f _ =>
        rw [hpc] at h
        cases h
      | _ =>
        rw [State.pc_goto] at h
        cases h
    | poll t ans q _ hpc hm =>
      obtain rfl := Option.some.inj hl
      rw [hpc]
      cases hm with
      | read _ _ _ _ _ _ => exact .inr ⟨⟨ans, rfl⟩, rfl⟩
      | threw _ _ | released _ _ _ _ | notReleased _ _ _ | readFailed _ _ _ _ =>
        rw [State.pc_goto] at h
        cases h
      | _ => exact .inl rfl
    | close t ans q _ hpc hm =>
      obtain rfl := Option.some.inj hl
      rw [hpc]
      cases hm with
      | read _ _ _ => exact .inr ⟨⟨ans, rfl⟩, rfl⟩
      | put _ _ _ | batchEnd _ _ _ => exact .inl rfl
      | _ =>
        rw [State.pc_goto] at h
        cases h
    | complete k res r hr _ => cases hl
    | redeliver k ev _ => cases hl
    | setForceSyscall value => cases hl
    | closeDumbHandlers => cases hl
  · rw [next_pc_of_ne hn hl] at h
    exact .inl h

/-- The thread in the loop over a batch leaves the buffer alone, too. -/
theorem next_events_of_inBatch (hn : next cfg x (.step p ans) = some x')
    (hp : (x.pc p).inBatch = true) : x'.events = x.events := by
  cases next_moves hn with
  | submit t ans q _ hpc hm => cases hm <;> rfl
  | blocked t ans q _ hpc hm =>
    rw [hpc] at hp
    cases hm with
    | read f k _ _ => cases hp
    | event f st _ hm => cases hm <;> rfl
    | _ => rfl
  | poll t ans q _ hpc hm =>
    rw [hpc] at hp
    cases hm with
    | read _ _ _ _ _ _ => cases hp
    | _ => rfl
  | close t ans q _ hpc hm =>
    rw [hpc] at hp
    cases hm with
    | read _ _ _ => cases hp
    | _ => rfl

/-! ### Holding a batch -/

/-- The run goes on while thread `p` is in the loop over its batch. -/
def Within (p : Tid) (x : State Tid) (l : Label Tid) : Prop :=
  Orderly x l ∧ (x.pc p).inBatch = true

instance [Fintype Tid] (p : Tid) (x : State Tid) : DecidablePred (Within p x) := fun _ =>
  inferInstanceAs (Decidable (_ ∧ _))

/-- Thread `p` has read the batch and is in state `s` behind the read; in state `x` it has
the buffer and the loop for itself, unless it has left the loop. -/
structure Holding (s : State Tid) (p : Tid) (batch : List IoEvent) (x : State Tid) : Prop where
  grown : s.accepted <+: x.accepted
  buffer : (x.pc p).inBatch = true → ∀ (j : ℕ) e, batch[j]? = some e → x.events j = e
  others : (x.pc p).inBatch = true → ∀ u, u ≠ p → (x.pc u).inBatch = false

/-- The other threads are outside, so what they say is beside the matter. -/
theorem Holding.aside (h : Holding s p batch x) (hl : Within p x l)
    (hn : next cfg x l = some x') (hne : l.tid? ≠ some p) :
    ∃ obs, x'.log = x.log ++ obs ∧ ∀ ob ∈ obs, ob.aside = true := by
  apply next_aside hn
  rintro t ans rfl
  have htp : t ≠ p := fun he => hne (congrArg some he)
  refine ⟨h.others hl.2 t htp, Bool.eq_false_iff.mpr fun hat => ?_⟩
  -- a read would find `p` in the loop
  have hout := hl.1.2 hat p htp.symm
  rw [hl.2] at hout
  cases hout

theorem Holding.step (h : Holding s p batch x) (hl : Within p x l)
    (hn : next cfg x l = some x') : Holding s p batch x' := by
  have hevents : x'.events = x.events := by
    by_cases hp : l.tid? = some p
    · cases l with
      | step t ans =>
        obtain rfl := Option.some.inj hp
        exact next_events_of_inBatch hn hl.2
      | call t m =>
        cases next_moves hn with
        | call t o m _ hpc hm => cases hm <;> rfl
      | _ => cases hp
    · exact next_events hl.1.2 hn hl.2 hp
  refine ⟨h.grown.trans (next_appends hn).1, fun _ j e he => ?_, fun hp u hu => ?_⟩
  · rw [hevents]
    exact h.buffer hl.2 j e he
  · refine Bool.eq_false_iff.mpr fun hbatch => ?_
    rcases next_inBatch hn hbatch with hbatch | ⟨⟨ans, rfl⟩, hat⟩
    · rw [h.others hl.2 u hu] at hbatch
      cases hbatch
    · have hout := hl.1.2 hat p hu.symm
      rw [hl.2] at hout
      cases hout

omit [DecidableEq Tid] in
theorem getEvents_events {obs : ℕ → Obs} {j : ℕ} {e : IoEvent}
    (he : (s.ring.take k)[j]? = some e) : (s.getEvents k obs).events j = e := by
  show ((s.ring.take k)[j]?).getD (s.events j) = e
  rw [he, Option.getD_some]

/-- A read begins it. -/
theorem Holding.read (obs : ℕ → Obs) (hal : ReadsAlone s (.step p ans))
    (hat : (s.pc p).atRead = true) (hn : next cfg s (.step p ans) = some x)
    (hev : x.events = (s.getEvents k obs).events) : Holding x p (s.ring.take k) x where
  grown := List.prefix_rfl
  buffer := by
    intro _ j e he
    rw [hev]
    exact getEvents_events he
  others := by
    intro _ u hu
    rw [next_pc_of_ne hn fun he => hu (Option.some.inj he).symm]
    exact hal hat u hu

/-- `blockedPoll` reads from the head of the ring, and begins with the first event. -/
theorem blocked_read {f : Frame} (hpc : s.pc p = .blocked (.getEvents f)) (hpos : 0 ≤ ans.events)
    (hn : next cfg s (.step p ans) = some x) :
    ans.events.toNat ≤ s.ring.length ∧
      x = (s.getEvents ans.events.toNat .reaped).goto p (.blocked (.event
        { f with i := 0, result := ans.events.toNat, lastFile := -1 } .test)) := by
  have hstep : blockedStep cfg s p ans (.getEvents f) = some x := by
    rw [← hn, next, hpc]
    rfl
  simp only [blockedStep] at hstep
  split at hstep
  · next hmay =>
    rw [if_neg (by simp only [EINTR]; omega), if_neg (by omega)] at hstep
    refine ⟨?_, (Option.some.inj hstep).symm⟩
    rcases hmay with hneg | ⟨-, hle⟩
    · omega
    · exact hle
  · cases hstep

/-- And so does `poll(callbacks, ..)`. -/
theorem poll_read {callbacks : List (Option ℕ)} {min max : ℤ}
    (hpc : s.pc p = .poll (.getEvents callbacks min max)) (hpos : 0 ≤ ans.events)
    (hn : next cfg s (.step p ans) = some x) :
    ans.events.toNat ≤ s.ring.length ∧
      x = (s.getEvents ans.events.toNat .polled).goto p
        (.poll (.event ⟨0, ans.events.toNat, callbacks, false⟩ .onError)) := by
  have hstep : pollStep cfg s p ans (.getEvents callbacks min max) = some x := by
    rw [← hn, next, hpc]
    rfl
  simp only [pollStep] at hstep
  split at hstep
  · next hmay =>
    rw [if_neg (by omega)] at hstep
    refine ⟨?_, (Option.some.inj hstep).symm⟩
    rcases hmay with hneg | ⟨-, hle⟩
    · omega
    · exact hle
  · cases hstep

/-! ### Numbers of requests -/

/-- The requests in flight and completed are numbered apart, and below the next number. -/
structure Numbered (x : State Tid) : Prop where
  nodup : (x.inflight.map (·.op) ++ x.ring.map (·.op)).Nodup
  below : ∀ o ∈ x.inflight.map (·.op) ++ x.ring.map (·.op), o < x.accepted.length

omit [DecidableEq Tid] in
theorem Numbered.mono (h : Numbered x) (hacc : x'.accepted = x.accepted)
    (hi : x'.inflight.Sublist x.inflight) (hr : x'.ring.Sublist x.ring) : Numbered x' := by
  have hsub : (x'.inflight.map (·.op) ++ x'.ring.map (·.op)).Sublist
      (x.inflight.map (·.op) ++ x.ring.map (·.op)) := (hi.map _).append (hr.map _)
  refine ⟨h.nodup.sublist hsub, fun o ho => ?_⟩
  rw [hacc]
  exact h.below o (hsub.subset ho)

omit [DecidableEq Tid] in
theorem Numbered.accept {g : Origin} (h : Numbered x) (hacc : x'.accepted = x.accepted ++ [g])
    {b : ℕ} (hi : x'.inflight = x.inflight ++ [⟨b, x.accepted.length⟩])
    (hr : x'.ring = x.ring) : Numbered x' := by
  have hperm : (x'.inflight.map (·.op) ++ x'.ring.map (·.op)).Perm
      (x.accepted.length :: (x.inflight.map (·.op) ++ x.ring.map (·.op))) := by
    rw [hi, hr, List.map_append, List.append_assoc]
    exact List.perm_middle
  refine ⟨hperm.nodup_iff.mpr (List.nodup_cons.mpr ⟨fun hmem => ?_, h.nodup⟩), fun o ho => ?_⟩
  · exact Nat.lt_irrefl _ (h.below _ hmem)
  · rw [hacc, List.length_append]
    rcases List.mem_cons.mp (hperm.mem_iff.mp ho) with rfl | ho
    · exact Nat.lt_succ_self _
    · exact Nat.lt_succ_of_lt (h.below o ho)

theorem Numbered.step (h : Numbered x) (honce : DeliversOnce l)
    (hn : next cfg x l = some x') : Numbered x' := by
  have hsame : ∀ {y : State Tid}, y.accepted = x.accepted → y.inflight = x.inflight →
      y.ring = x.ring → Numbered y := fun hacc hi hr =>
    h.mono hacc (hi ▸ .refl _) (hr ▸ .refl _)
  cases next_moves hn with
  | call t o m _ hpc hm => cases hm <;> exact hsame rfl rfl rfl
  | submit t ans q _ hpc hm =>
    cases hm with
    | accepted a b _ _ => exact h.accept rfl rfl rfl
    | _ => exact hsame rfl rfl rfl
  | blocked t ans q _ hpc hm =>
    cases hm with
    | read f k _ _ => exact h.mono rfl (.refl _) (List.drop_sublist k x.ring)
    | event f st _ hm => cases hm <;> exact hsame rfl rfl rfl
    | _ => exact hsame rfl rfl rfl
  | poll t ans q _ hpc hm =>
    cases hm with
    | read _ _ _ k _ _ => exact h.mono rfl (.refl _) (List.drop_sublist k x.ring)
    | _ => exact hsame rfl rfl rfl
  | close t ans q _ hpc hm =>
    cases hm with
    | accepted b _ _ => exact h.accept rfl rfl rfl
    | read k _ _ => exact h.mono rfl (.refl _) (List.drop_sublist k x.ring)
    | queueReleased => exact h.mono rfl (List.nil_sublist _) (List.nil_sublist _)
    | _ => exact hsame rfl rfl rfl
  | complete k res r hr _ =>
    obtain ⟨hk, rfl⟩ := List.getElem?_eq_some_iff.mp hr
    -- the completed request goes from one list to the other
    have hperm : ((x.complete k ⟨x.inflight[k].obj, res, x.inflight[k].op⟩).inflight.map (·.op) ++
        (x.complete k ⟨x.inflight[k].obj, res, x.inflight[k].op⟩).ring.map (·.op)).Perm
          (x.inflight.map (·.op) ++ x.ring.map (·.op)) := by
      have hmap := ((List.getElem_cons_eraseIdx_perm hk).map (·.op)).append_right
        (x.ring.map (·.op))
      simp only [State.complete, List.map_append, List.map_cons, List.map_nil,
        ← List.append_assoc] at hmap ⊢
      exact List.perm_append_comm.trans hmap
    exact ⟨hperm.nodup_iff.mpr h.nodup, fun o ho => h.below o (hperm.mem_iff.mp ho)⟩
  | redeliver k ev _ => exact absurd honce id
  | setForceSyscall value => exact hsame rfl rfl rfl
  | closeDumbHandlers => exact hsame rfl rfl rfl

omit [DecidableEq Tid] in
theorem Numbered.initial (env : Process) : Numbered (.initial cfg env : State Tid) :=
  ⟨List.nodup_nil, nofun⟩

omit [DecidableEq Tid] in
/-- The events of a batch are of different requests. -/
theorem Numbered.nodup_take (h : Numbered x) (k : ℕ) : ((x.ring.take k).map (·.op)).Nodup :=
  (h.nodup.sublist (List.sublist_append_right _ _)).sublist ((List.take_sublist k _).map _)

/-! ### Every orderly run -/

/-- What holds in each state that an orderly run leads to. -/
structure Consistent (cfg : Config) (x : State Tid) : Prop where
  owned : Owned cfg x
  matched : Matched x
  numbered : Numbered x
  opened : ∀ g ∈ x.accepted, 0 ≤ g.fd

theorem Consistent.step (h : Consistent cfg x) (hl : Orderly x l) (hn : next cfg x l = some x') :
    Consistent cfg x' where
  owned := h.owned.step hl.1 hl.2 hn
  matched := h.matched.step h.owned hl.1 hl.2 hn
  numbered := h.numbered.step hl.1 hn
  opened := next_open h.matched h.opened hn

omit [DecidableEq Tid] in
theorem Consistent.initial (hq : 0 < cfg.queueSize) (env : Process) :
    Consistent cfg (.initial cfg env : State Tid) where
  owned := .initial hq env
  matched := .initial env
  numbered := .initial env
  opened := nofun

theorem Consistent.run {ls : List (Label Tid)} (h : Consistent cfg s)
    (hr : Run (next cfg) Orderly s ls x) : Consistent cfg x :=
  hr.invariant h fun _ _ _ h hl hn => h.step hl hn

omit [DecidableEq Tid] in
/-- What is in the ring has been accepted. -/
theorem Consistent.known (h : Consistent cfg x) (k : ℕ) :
    ∀ e ∈ x.ring.take k, e.op < x.accepted.length := fun _ he =>
  h.numbered.below _ (List.mem_append_right _ (List.mem_map_of_mem (List.mem_of_mem_take he)))

omit [DecidableEq Tid] in
/-- The file of the event at hand is in its iocb. -/
theorem Consistent.file_eq (h : Consistent cfg x) {ev : IoEvent} {rest : List IoEvent}
    (hb : (x.view p).batch = ev :: rest) : ∃ g, x.accepted[ev.op]? = some g ∧
      (x.iocb ev.obj).aio_fildes = g.fd ∧ 0 ≤ g.fd := by
  obtain ⟨g, hg, hfit⟩ := h.matched.at_hand hb
  exact ⟨g, hg, hfit.fd_eq, h.opened g (List.mem_of_getElem? hg)⟩

end ArtemisNative
