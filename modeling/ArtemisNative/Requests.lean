/-
ArtemisNative/Requests.lean

Which request an event answers.

The kernel returns the address of an iocb, and the poller looks into the iocb
for the rest: the descriptor, and in `data` the reference to the callback.  But
an iocb goes back into the pool and is prepared again for another submission, at
any moment and by any thread.  `Matched` says that what the poller finds there
is nevertheless what was submitted:

* the iocb of a request in transit, from `io_submit` to the moment the poller
  clears its `data`, holds what was prepared for that request;
* its `data` names the callback of the submission by a reference that is live;
* no reference is kept at two places, so that deleting one breaks no other.

A `View` is what a thread has to do with requests, read off its program counter.
A step that gives a thread nothing new to look at keeps `Matched` (`Keeps`);
the steps that do are the preparation of an iocb, its submission, and the one
in which the poller takes the callback out of the iocb.
-/
import ArtemisNative.Ownership

namespace ArtemisNative

open Transition

variable {Tid : Type} [DecidableEq Tid] {cfg : Config} {s s' : State Tid} {t : Tid} {p : Pc}
variable {b : ℕ} {ans : Answer} {l : Label Tid}

/-! ### What an iocb says -/

/-- `data` is the callback: `NULL` for `null`, else a live reference to it. -/
def GlobalRefs.Names (g : GlobalRefs) (data : IocbData) : Option ℕ → Prop
  | none => data = .null
  | some c => ∃ r, data = .ref r ∧ g.live r = some c

/-- What `data` of the iocb of a request is. -/
def Origin.Data (g : GlobalRefs) (data : IocbData) : Origin → Prop
  | .user a => g.Names data a.callback
  | .stop _ => data = .stop

/-- The iocb prepared for a request. -/
def Origin.prep (data : IocbData) : Origin → Iocb
  | .user a => a.prep data
  | .stop fd => sentinel fd

/-- The contents of an iocb are what was prepared for the request. -/
def Origin.Fits (g : GlobalRefs) (m : Iocb) (origin : Origin) : Prop :=
  origin.Data g m.data ∧ m = origin.prep m.data

theorem GlobalRefs.Names.congr {g g' : GlobalRefs} {data : IocbData} {callback : Option ℕ}
    (h : g.Names data callback) (hl : ∀ r, data = .ref r → g'.live r = g.live r) :
    g'.Names data callback := by
  cases callback with
  | none => exact h
  | some c =>
    obtain ⟨r, hr, hc⟩ := h
    exact ⟨r, hr, (hl r hr).trans hc⟩

theorem Origin.Data.congr {g g' : GlobalRefs} {data : IocbData} {origin : Origin}
    (h : origin.Data g data) (hl : ∀ r, data = .ref r → g'.live r = g.live r) :
    origin.Data g' data := by
  cases origin with
  | user a => exact GlobalRefs.Names.congr h hl
  | stop fd => exact h

/-- A reference that names a callback is live. -/
theorem Origin.Data.live {g : GlobalRefs} {r : ℕ} {origin : Origin}
    (h : origin.Data g (.ref r)) : g.live r ≠ none := by
  cases origin with
  | user a =>
    cases hc : a.callback with
    | none => simp [Origin.Data, GlobalRefs.Names, hc] at h
    | some c =>
      simp only [Origin.Data, GlobalRefs.Names, hc, IocbData.ref.injEq] at h
      obtain ⟨r', rfl, hlive⟩ := h
      simp [hlive]
  | stop fd => cases h

/-! ### What a thread has to do with requests -/

structure View where
  /-- the events whose iocbs have not been looked into -/
  batch : List IoEvent := []
  /-- the iocb that is about to be submitted, with the arguments of `submitWrite`
  or `submitRead`, or none of these in `deleteContext` -/
  prepared : Option (Option Submission × ℕ) := none
  /-- the iocb whose submission has failed, before its reference is deleted -/
  failed : Option ℕ := none
  /-- the request whose callback the poller has in its local `obj` -/
  hand : Option (ℕ × IocbData) := none

def Stage.view (events : ℕ → IoEvent) (f : Frame) : Stage → View
  | .test => { batch := eventsFrom events f.i f.result }
  | .stop => { batch := [events f.i] }
  | .sync | .onError | .take =>
    { batch := events f.i :: eventsFrom events (f.i + 1) f.result }
  | .put obj | .done obj | .inDone obj | .release obj | .deleteRef obj =>
    { batch := eventsFrom events (f.i + 1) f.result, hand := some ((events f.i).op, obj) }
  | .warn => { batch := eventsFrom events (f.i + 1) f.result }

def Pc.view (events : ℕ → IoEvent) : Pc → View
  | .submit (.ioSubmit a b) => { prepared := some (some a, b) }
  | .submit (.deleteRef b _) => { failed := some b }
  | .blocked (.event f st) => st.view events f
  | .poll (.event f .onError) => { batch := eventsFrom events f.i f.result }
  | .poll (.event f .put) => { batch := eventsFrom events (f.i + 1) f.result }
  | .poll (.event f _) => { batch := events f.i :: eventsFrom events (f.i + 1) f.result }
  | .close (.ioSubmit b) => { prepared := some (none, b) }
  | .close (.put i result) => { batch := eventsFrom events i result }
  | _ => {}

/-- The iocbs whose contents matter to the thread. -/
def View.loaded (v : View) : List ℕ :=
  v.batch.map (·.obj) ++ (v.prepared.map (·.2)).toList ++ v.failed.toList

/-- They are among the iocbs it owns. -/
theorem Pc.loaded_subset_holds (events : ℕ → IoEvent) (p : Pc) :
    (p.view events).loaded ⊆ p.holds events := by
  cases p with
  | idle o => simp [Pc.view, View.loaded]
  | submit p => cases p <;> simp [Pc.view, View.loaded, Pc.holds]
  | blocked p =>
    cases p with
    | event f st =>
      cases st <;> simp [Pc.view, Stage.view, View.loaded, Pc.holds, Stage.holds, objsFrom]
    | _ => simp [Pc.view, View.loaded]
  | poll p =>
    cases p with
    | event f st => cases st <;> simp [Pc.view, View.loaded, Pc.holds, objsFrom]
    | _ => simp [Pc.view, View.loaded]
  | close p => cases p <;> simp [Pc.view, View.loaded, Pc.holds, objsFrom]

namespace State

def view (s : State Tid) (t : Tid) : View := (s.pc t).view s.events

/-- The requests in transit, by place: the kernel, or the batch of a thread. -/
def requests (s : State Tid) : Option Tid → List (ℕ × ℕ)
  | none => s.inflight.map (fun r => (r.obj, r.op)) ++ s.ring.map fun e => (e.obj, e.op)
  | some t => (s.view t).batch.map fun e => (e.obj, e.op)

/-- The iocbs whose contents matter, by place. -/
def loaded (s : State Tid) : Option Tid → List ℕ
  | none => (s.requests none).map (·.1)
  | some t => (s.view t).loaded

end State

/-- Where a reference may be kept: in an iocb, or in the local of a poller. -/
inductive Keeper (Tid : Type)
  | iocb (b : ℕ)
  | hand (t : Tid)

/-- The reference `r` is kept by `x`. -/
def State.RefAt (s : State Tid) : Keeper Tid → ℕ → Prop
  | .iocb b, r => (∃ q, b ∈ s.loaded q) ∧ (s.iocb b).data = .ref r
  | .hand t, r => ∃ o, (s.view t).hand = some (o, .ref r)

/-! ### The invariant -/

structure Matched (s : State Tid) : Prop where
  transit : ∀ q b o, (b, o) ∈ s.requests q →
    ∃ origin, s.accepted[o]? = some origin ∧ origin.Fits s.refs (s.iocb b)
  prepared : ∀ t a b, (s.view t).prepared = some (a, b) →
    ∃ fd, (a.elim (Origin.stop fd) .user).Fits s.refs (s.iocb b)
  failed : ∀ t b, (s.view t).failed = some b →
    ∃ a : Submission, s.refs.Names (s.iocb b).data a.callback
  hand : ∀ t o obj, (s.view t).hand = some (o, obj) →
    ∃ origin, s.accepted[o]? = some origin ∧ origin.Data s.refs obj
  apart : ∀ x y r, s.RefAt x r → s.RefAt y r → x = y

omit [DecidableEq Tid] in
theorem State.mem_loaded {q : Option Tid} :
    b ∈ s.loaded q ↔ (∃ o, (b, o) ∈ s.requests q) ∨
      ∃ t, q = some t ∧ ((∃ a, (s.view t).prepared = some (a, b)) ∨ (s.view t).failed = some b) := by
  cases q with
  | none => simp [State.loaded]
  | some t =>
    simp only [State.loaded, View.loaded, State.requests, List.mem_append, List.mem_map,
      Option.mem_toList, Option.map_eq_some_iff, Prod.mk.injEq, Option.some.injEq]
    constructor
    · rintro ((⟨e, he, rfl⟩ | ⟨⟨a, b⟩, hp, rfl⟩) | hf)
      · exact .inl ⟨e.op, e, he, rfl, rfl⟩
      · exact .inr ⟨t, rfl, .inl ⟨a, hp⟩⟩
      · exact .inr ⟨t, rfl, .inr hf⟩
    · rintro (⟨o, e, he, rfl, -⟩ | ⟨_, rfl, ⟨a, hp⟩ | hf⟩)
      · exact .inl (.inl ⟨e, he, rfl⟩)
      · exact .inl (.inr ⟨(a, b), hp, rfl⟩)
      · exact .inr hf

omit [DecidableEq Tid] in
/-- Whose contents matter is owned. -/
theorem State.loaded_subset_holders (s : State Tid) (q : Option Tid) :
    s.loaded q ⊆ s.holders q := by
  cases q with
  | none => simp [State.loaded, State.requests, State.holders, List.map_map, Function.comp_def]
  | some t => exact Pc.loaded_subset_holds s.events (s.pc t)

omit [DecidableEq Tid] in
theorem Matched.live {x : Keeper Tid} {r : ℕ} (h : Matched s) (hx : s.RefAt x r) :
    s.refs.live r ≠ none := by
  cases x with
  | iocb b =>
    obtain ⟨⟨q, hq⟩, hd⟩ := hx
    rcases State.mem_loaded.mp hq with ⟨o, ho⟩ | ⟨t, rfl, ⟨a, hp⟩ | hf⟩
    · obtain ⟨origin, -, hdata, -⟩ := h.transit q b o ho
      exact (hd ▸ hdata).live
    · obtain ⟨fd, hdata, -⟩ := h.prepared t a b hp
      exact (hd ▸ hdata).live
    · obtain ⟨a, hn⟩ := h.failed t b hf
      have hdata : Origin.Data s.refs (.ref r) (.user a) := hd ▸ hn
      exact hdata.live
  | hand t =>
    obtain ⟨o, ho⟩ := hx
    obtain ⟨origin, -, hdata⟩ := h.hand t o _ ho
    exact hdata.live

/-! ### Steps that give nobody anything new -/

structure Keeps (s s' : State Tid) : Prop where
  accepted : s.accepted <+: s'.accepted
  requests : ∀ q x, x ∈ s'.requests q → ∃ q', x ∈ s.requests q'
  prepared : ∀ t x, (s'.view t).prepared = some x → (s.view t).prepared = some x
  failed : ∀ t b, (s'.view t).failed = some b →
    (s.view t).failed = some b ∨ ∃ a, (s.view t).prepared = some (some a, b)
  hand : ∀ t x, (s'.view t).hand = some x → (s.view t).hand = some x
  iocb : ∀ q b, b ∈ s'.loaded q → s'.iocb b = s.iocb b
  live : ∀ x r, s'.RefAt x r → s'.refs.live r = s.refs.live r

omit [DecidableEq Tid] in
theorem Keeps.loaded {q : Option Tid} (h : Keeps s s') (hb : b ∈ s'.loaded q) :
    ∃ q', b ∈ s.loaded q' := by
  rcases State.mem_loaded.mp hb with ⟨o, ho⟩ | ⟨t, rfl, ⟨a, hp⟩ | hf⟩
  · obtain ⟨q', hq'⟩ := h.requests q _ ho
    exact ⟨q', State.mem_loaded.mpr (.inl ⟨o, hq'⟩)⟩
  · exact ⟨some t, State.mem_loaded.mpr (.inr ⟨t, rfl, .inl ⟨a, h.prepared t _ hp⟩⟩)⟩
  · rcases h.failed t b hf with hf | ⟨a, hp⟩
    · exact ⟨some t, State.mem_loaded.mpr (.inr ⟨t, rfl, .inr hf⟩)⟩
    · exact ⟨some t, State.mem_loaded.mpr (.inr ⟨t, rfl, .inl ⟨some a, hp⟩⟩)⟩

omit [DecidableEq Tid] in
theorem Keeps.refAt {x : Keeper Tid} {r : ℕ} (h : Keeps s s') (hx : s'.RefAt x r) :
    s.RefAt x r := by
  cases x with
  | iocb b =>
    obtain ⟨⟨q, hq⟩, hd⟩ := hx
    exact ⟨h.loaded hq, (h.iocb q b hq) ▸ hd⟩
  | hand t =>
    obtain ⟨o, ho⟩ := hx
    exact ⟨o, h.hand t _ ho⟩

omit [DecidableEq Tid] in
/-- What was prepared in a loaded iocb still is. -/
theorem Keeps.fits {q : Option Tid} {origin : Origin} (h : Keeps s s') (hb : b ∈ s'.loaded q)
    (hf : origin.Fits s.refs (s.iocb b)) : origin.Fits s'.refs (s'.iocb b) := by
  have hlive : ∀ r, (s.iocb b).data = .ref r → s'.refs.live r = s.refs.live r := fun r hr =>
    h.live (.iocb b) r ⟨⟨q, hb⟩, (h.iocb q b hb).symm ▸ hr⟩
  rw [h.iocb q b hb]
  exact ⟨hf.1.congr hlive, hf.2⟩

theorem getElem?_of_isPrefix {α : Type*} {xs ys : List α} {i : ℕ} {a : α} (h : xs <+: ys)
    (ha : xs[i]? = some a) : ys[i]? = some a := by
  obtain ⟨rest, rfl⟩ := h
  rw [List.getElem?_append_left (List.getElem?_eq_some_iff.mp ha).1]
  exact ha

omit [DecidableEq Tid] in
theorem Matched.keeps (h : Matched s) (hk : Keeps s s') : Matched s' where
  transit := by
    intro q b o ho
    obtain ⟨q', hq'⟩ := hk.requests q _ ho
    obtain ⟨origin, hacc, hfit⟩ := h.transit q' b o hq'
    exact ⟨origin, getElem?_of_isPrefix hk.accepted hacc,
      hk.fits (State.mem_loaded.mpr (.inl ⟨o, ho⟩)) hfit⟩
  prepared := by
    intro t a b hp
    obtain ⟨fd, hfit⟩ := h.prepared t a b (hk.prepared t _ hp)
    exact ⟨fd, hk.fits (State.mem_loaded.mpr (.inr ⟨t, rfl, .inl ⟨a, hp⟩⟩)) hfit⟩
  failed := by
    intro t b hf
    have hb : b ∈ s'.loaded (some t) := State.mem_loaded.mpr (.inr ⟨t, rfl, .inr hf⟩)
    have hlive : ∀ r, (s.iocb b).data = .ref r → s'.refs.live r = s.refs.live r := fun r hr =>
      hk.live (.iocb b) r ⟨⟨_, hb⟩, (hk.iocb _ b hb).symm ▸ hr⟩
    rw [hk.iocb _ b hb]
    rcases hk.failed t b hf with hf | ⟨a, hp⟩
    · obtain ⟨a, hn⟩ := h.failed t b hf
      exact ⟨a, hn.congr hlive⟩
    · obtain ⟨fd, hfit, -⟩ := h.prepared t _ b hp
      exact ⟨a, GlobalRefs.Names.congr hfit hlive⟩
  hand := by
    intro t o obj ho
    obtain ⟨origin, hacc, hdata⟩ := h.hand t o obj (hk.hand t _ ho)
    refine ⟨origin, getElem?_of_isPrefix hk.accepted hacc, hdata.congr ?_⟩
    rintro r rfl
    exact hk.live (.hand t) r ⟨o, ho⟩
  apart := fun x y r hx hy => h.apart x y r (hk.refAt hx) (hk.refAt hy)

/-- The part of the state that says who has to do with which request, besides
the program counters. -/
def State.transfers (s : State Tid) := (s.accepted, s.inflight, s.ring, s.events)

/-- A thread that has no more to do with requests than before. -/
structure View.Le (v w : View) : Prop where
  batch : v.batch ⊆ w.batch
  prepared : ∀ x, v.prepared = some x → w.prepared = some x
  failed : ∀ b, v.failed = some b → w.failed = some b ∨ ∃ a, w.prepared = some (some a, b)
  hand : ∀ x, v.hand = some x → w.hand = some x

theorem View.Le.refl (v : View) : v.Le v :=
  ⟨fun _ h => h, fun _ h => h, fun _ h => .inl h, fun _ h => h⟩

theorem View.Le.empty (v : View) : View.Le {} v := ⟨nofun, nofun, nofun, nofun⟩

theorem View.Le.of_batch {es : List IoEvent} {w : View} (h : es ⊆ w.batch) :
    View.Le { batch := es } w := ⟨h, nofun, nofun, nofun⟩

theorem view_update (he : s'.events = s.events) (hpc : s'.pc = Function.update s.pc t p) :
    s'.view t = p.view s.events ∧ ∀ u, u ≠ t → s'.view u = s.view u := by
  refine ⟨?_, fun u hu => ?_⟩
  · simp [State.view, hpc, he]
  · simp [State.view, hpc, he, hu]

theorem Keeps.of_view (hs : s'.transfers = s.transfers)
    (hpc : s'.pc = Function.update s.pc t p) (hle : (p.view s.events).Le (s.view t))
    (hiocb : ∀ q b, b ∈ s'.loaded q → s'.iocb b = s.iocb b)
    (hlive : ∀ x r, s'.RefAt x r → s'.refs.live r = s.refs.live r) : Keeps s s' := by
  simp only [State.transfers, Prod.mk.injEq] at hs
  obtain ⟨hacc, hi, hr, he⟩ := hs
  obtain ⟨ht, hu⟩ := view_update he hpc
  refine ⟨hacc ▸ List.prefix_rfl, ?_, ?_, ?_, ?_, hiocb, hlive⟩
  · intro q x hx
    refine ⟨q, ?_⟩
    cases q with
    | none => simpa [State.requests, hi, hr] using hx
    | some u =>
      simp only [State.requests] at hx ⊢
      by_cases hut : u = t
      · subst hut
        rw [ht] at hx
        exact List.map_subset _ hle.batch hx
      · rwa [hu u hut] at hx
  · intro u x hx
    by_cases hut : u = t
    · subst hut
      exact hle.prepared x (ht ▸ hx)
    · exact hu u hut ▸ hx
  · intro u b hb
    by_cases hut : u = t
    · subst hut
      exact hle.failed b (ht ▸ hb)
    · exact .inl (hu u hut ▸ hb)
  · intro u x hx
    by_cases hut : u = t
    · subst hut
      exact hle.hand x (ht ▸ hx)
    · exact hu u hut ▸ hx

/-- The thread moves on, and neither iocbs nor references change. -/
theorem Matched.move (h : Matched s) (hs : s'.transfers = s.transfers)
    (hiocb : s'.iocb = s.iocb) (hrefs : s'.refs = s.refs)
    (hpc : s'.pc = Function.update s.pc t p) (hle : (p.view s.events).Le (s.view t)) :
    Matched s' :=
  h.keeps (.of_view hs hpc hle (fun _ b _ => congrFun hiocb b) fun _ r _ => by rw [hrefs])

/-- After its thread lets go of an iocb it is loaded nowhere. -/
theorem Owned.not_loaded (h : Owned cfg s) (hs : s'.transfers = s.transfers)
    (hpc : s'.pc = Function.update s.pc t p) (hb : b ∈ (s.pc t).holds s.events)
    (hnot : b ∉ (p.view s.events).loaded) (q : Option Tid) : b ∉ s'.loaded q := by
  simp only [State.transfers, Prod.mk.injEq] at hs
  obtain ⟨-, hi, hr, he⟩ := hs
  obtain ⟨ht, hu⟩ := view_update he hpc
  -- every other place is as before, and owns its iocbs
  have hother : ∀ q, q ≠ some t → b ∉ s.loaded q := fun q hq hbq =>
    hq (h.custody.place_unique (s.loaded_subset_holders q hbq) hb)
  cases q with
  | none =>
    have hnone := hother none nofun
    simpa only [State.loaded, State.requests, hi, hr] using hnone
  | some u =>
    by_cases hut : u = t
    · subst hut
      simpa only [State.loaded, ht] using hnot
    · have hsome := hother (some u) (by simpa using hut)
      simpa only [State.loaded, hu u hut] using hsome

/-- A keeper gives up its reference and deletes it. -/
theorem Matched.delete {data : IocbData} (y : Keeper Tid) (h : Matched s)
    (hs : s'.transfers = s.transfers) (hiocb : s'.iocb = s.iocb)
    (hrefs : s'.refs = s.refs.delete data) (hpc : s'.pc = Function.update s.pc t p)
    (hle : (p.view s.events).Le (s.view t))
    (hy : ∀ r, data = .ref r → s.RefAt y r ∧ ¬s'.RefAt y r) : Matched s' := by
  -- the reference of any other keeper is another one
  have hother : ∀ x r, s.RefAt x r → s'.RefAt x r → data ≠ .ref r := by
    intro x r hx hx' hd
    obtain ⟨hyr, hyr'⟩ := hy r hd
    exact hyr' (h.apart x y r hx hyr ▸ hx')
  have hkeep : Keeps s { s' with refs := s.refs } :=
    .of_view hs hpc hle (fun _ b _ => congrFun hiocb b) fun _ _ _ => rfl
  refine h.keeps (.of_view hs hpc hle (fun _ b _ => congrFun hiocb b) fun x r hx => ?_)
  have hne := hother x r (hkeep.refAt hx) hx
  rw [hrefs]
  cases data with
  | ref r' => exact Function.update_of_ne (fun he => hne (by rw [he])) _ _
  | _ => rfl

/-- A thread prepares an iocb for its submission. -/
theorem Matched.prepare {a : Option Submission} {m : Iocb} (h : Matched s) (hown : Owned cfg s)
    (hs : s'.transfers = s.transfers) (hiocb : s'.iocb = Function.update s.iocb b m)
    (hpc : s'.pc = Function.update s.pc t p) (hb : b ∈ (s.pc t).holds s.events)
    (hbefore : s.view t = {}) (hafter : p.view s.events = { prepared := some (a, b) })
    (hfit : ∃ fd, (a.elim (Origin.stop fd) .user).Fits s'.refs m)
    (hlive : ∀ r, s.refs.live r ≠ none → s'.refs.live r = s.refs.live r)
    (hnew : ∀ r, m.data = .ref r → s.refs.live r = none) : Matched s' := by
  have hs' := hs
  simp only [State.transfers, Prod.mk.injEq] at hs'
  obtain ⟨hacc, hi, hr, he⟩ := hs'
  obtain ⟨ht, hu⟩ := view_update he hpc
  rw [hafter] at ht
  -- nobody else looks into the iocb
  have hne : ∀ q d, d ∈ s.loaded q → d ≠ b := by
    rintro q d hd rfl
    obtain rfl : q = some t :=
      hown.custody.place_unique (q := some t) (s.loaded_subset_holders q hd) hb
    simp [State.loaded, hbefore, View.loaded] at hd
  have hreq : ∀ q, s'.requests q = s.requests q := by
    intro q
    cases q with
    | none => simp [State.requests, hi, hr]
    | some u =>
      by_cases hut : u = t
      · subst hut
        simp [State.requests, ht, hbefore]
      · simp [State.requests, hu u hut]
  have hfits : ∀ q d (origin : Origin), d ∈ s.loaded q → origin.Fits s.refs (s.iocb d) →
      origin.Fits s'.refs (s'.iocb d) := by
    intro q d origin hd hf
    rw [hiocb, Function.update_of_ne (hne q d hd)]
    refine ⟨hf.1.congr fun r hr => hlive r ?_, hf.2⟩
    exact h.live (x := .iocb d) ⟨⟨q, hd⟩, hr⟩
  -- the references kept before are not the new one
  have hold : ∀ x r, s'.RefAt x r → s.RefAt x r ∨ (x = .iocb b ∧ s.refs.live r = none) := by
    intro x r hx
    cases x with
    | hand u =>
      obtain ⟨o, ho⟩ := hx
      by_cases hut : u = t
      · subst hut
        simp [ht] at ho
      · exact .inl ⟨o, hu u hut ▸ ho⟩
    | iocb d =>
      obtain ⟨⟨q, hq⟩, hd⟩ := hx
      by_cases hdb : d = b
      · subst hdb
        rw [hiocb, Function.update_self] at hd
        exact .inr ⟨rfl, hnew r hd⟩
      · rw [hiocb, Function.update_of_ne hdb] at hd
        refine .inl ⟨⟨q, ?_⟩, hd⟩
        rcases State.mem_loaded.mp hq with ⟨o, ho⟩ | ⟨u, rfl, hpf⟩
        · exact State.mem_loaded.mpr (.inl ⟨o, hreq q ▸ ho⟩)
        · by_cases hut : u = t
          · subst hut
            simp [ht, Ne.symm hdb] at hpf
          · exact State.mem_loaded.mpr (.inr ⟨u, rfl, hu u hut ▸ hpf⟩)
  refine ⟨?_, ?_, ?_, ?_, ?_⟩
  · intro q d o ho
    rw [hreq] at ho
    obtain ⟨origin, hori, hf⟩ := h.transit q d o ho
    exact ⟨origin, hacc ▸ hori, hfits q d origin (State.mem_loaded.mpr (.inl ⟨o, ho⟩)) hf⟩
  · intro u a' d hp
    by_cases hut : u = t
    · subst hut
      simp only [ht, Option.some.injEq, Prod.mk.injEq] at hp
      obtain ⟨rfl, rfl⟩ := hp
      rw [hiocb, Function.update_self]
      exact hfit
    · rw [hu u hut] at hp
      obtain ⟨fd, hf⟩ := h.prepared u a' d hp
      exact ⟨fd, hfits (some u) d _ (State.mem_loaded.mpr (.inr ⟨u, rfl, .inl ⟨a', hp⟩⟩)) hf⟩
  · intro u d hf
    by_cases hut : u = t
    · subst hut
      simp [ht] at hf
    · rw [hu u hut] at hf
      have hd : d ∈ s.loaded (some u) := State.mem_loaded.mpr (.inr ⟨u, rfl, .inr hf⟩)
      obtain ⟨a', hn⟩ := h.failed u d hf
      rw [hiocb, Function.update_of_ne (hne _ d hd)]
      exact ⟨a', hn.congr fun r hr => hlive r (h.live (x := .iocb d) ⟨⟨_, hd⟩, hr⟩)⟩
  · intro u o obj ho
    by_cases hut : u = t
    · subst hut
      simp [ht] at ho
    · rw [hu u hut] at ho
      obtain ⟨origin, hori, hdata⟩ := h.hand u o obj ho
      refine ⟨origin, hacc ▸ hori, hdata.congr ?_⟩
      rintro r rfl
      exact hlive r (h.live (x := .hand u) ⟨o, ho⟩)
  · intro x y r hx hy
    rcases hold x r hx with hx | ⟨rfl, hdead⟩ <;> rcases hold y r hy with hy | ⟨rfl, hdead'⟩
    · exact h.apart x y r hx hy
    · exact absurd hdead' (h.live hx)
    · exact absurd hdead (h.live hy)
    · rfl

/-- A thread submits the iocb it has prepared. -/
theorem Matched.accept {a : Option Submission} {origin : Origin} (h : Matched s)
    (hs : s'.transfers = (s.accept b origin).transfers) (hiocb : s'.iocb = s.iocb)
    (hrefs : s'.refs = s.refs) (hpc : s'.pc = Function.update s.pc t p)
    (hbefore : s.view t = { prepared := some (a, b) }) (hafter : p.view s.events = {})
    (horigin : origin = a.elim (.stop (s.iocb b).aio_fildes) .user) : Matched s' := by
  simp only [State.transfers, State.accept, Prod.mk.injEq] at hs
  obtain ⟨hacc, hi, hr, he⟩ := hs
  obtain ⟨ht, hu⟩ := view_update he hpc
  rw [hafter] at ht
  have hprefix : s.accepted <+: s'.accepted := hacc ▸ List.prefix_append _ _
  have hbt : b ∈ s.loaded (some t) := by simp [State.loaded, hbefore, View.loaded]
  -- the requests in transit are those of before and the new one
  have hreq : ∀ q d o, (d, o) ∈ s'.requests q →
      (d, o) ∈ s.requests q ∨ (d = b ∧ o = s.accepted.length) := by
    intro q d o ho
    cases q with
    | none =>
      simp only [State.requests, hi, hr, List.map_append, List.map_cons, List.map_nil,
        List.mem_append, List.mem_singleton, Prod.mk.injEq] at ho
      simp only [State.requests, List.mem_append]
      rcases ho with (ho | ho) | ho
      · exact .inl (.inl ho)
      · exact .inr ho
      · exact .inl (.inr ho)
    | some u =>
      by_cases hut : u = t
      · subst hut
        simp [State.requests, ht] at ho
      · exact .inl (by simpa only [State.requests, hu u hut] using ho)
  -- the thread has nothing but what is in transit, and the others have what they had
  have hkeep : ∀ {β : Type} (g : View → Option β), g {} = none →
      ∀ u x, g (s'.view u) = some x → g (s.view u) = some x := by
    intro β g hg u x hx
    by_cases hut : u = t
    · subst hut
      rw [ht, hg] at hx
      cases hx
    · exact hu u hut ▸ hx
  have hprep := hkeep View.prepared rfl
  have hfailed := hkeep View.failed rfl
  have hhand := hkeep View.hand rfl
  have href : ∀ x r, s'.RefAt x r → s.RefAt x r := by
    intro x r hx
    cases x with
    | hand u =>
      obtain ⟨o, ho⟩ := hx
      exact ⟨o, hhand u _ ho⟩
    | iocb d =>
      obtain ⟨⟨q, hq⟩, hd⟩ := hx
      rw [hiocb] at hd
      refine ⟨?_, hd⟩
      rcases State.mem_loaded.mp hq with ⟨o, ho⟩ | ⟨u, rfl, ⟨x, hx⟩ | hx⟩
      · rcases hreq q d o ho with ho | ⟨rfl, -⟩
        · exact ⟨q, State.mem_loaded.mpr (.inl ⟨o, ho⟩)⟩
        · exact ⟨some t, hbt⟩
      · exact ⟨some u, State.mem_loaded.mpr (.inr ⟨u, rfl, .inl ⟨x, hprep u _ hx⟩⟩)⟩
      · exact ⟨some u, State.mem_loaded.mpr (.inr ⟨u, rfl, .inr (hfailed u _ hx)⟩)⟩
  refine ⟨?_, ?_, ?_, ?_, fun x y r hx hy => h.apart x y r (href x r hx) (href y r hy)⟩
  · intro q d o ho
    rw [hiocb, hrefs]
    rcases hreq q d o ho with ho | ⟨rfl, rfl⟩
    · obtain ⟨origin', hori, hf⟩ := h.transit q d o ho
      exact ⟨origin', getElem?_of_isPrefix hprefix hori, hf⟩
    · obtain ⟨fd, hf⟩ := h.prepared t a d (by rw [hbefore])
      refine ⟨origin, by simp [hacc], ?_⟩
      rw [horigin]
      cases a with
      | some a => exact hf
      | none =>
        have hfd : (s.iocb d).aio_fildes = fd := congrArg Iocb.aio_fildes hf.2
        rw [hfd]
        exact hf
  · intro u x d hx
    rw [hiocb, hrefs]
    exact h.prepared u x d (hprep u _ hx)
  · intro u d hd
    rw [hiocb, hrefs]
    exact h.failed u d (hfailed u d hd)
  · intro u o obj ho
    obtain ⟨origin', hori, hdata⟩ := h.hand u o obj (hhand u _ ho)
    exact ⟨origin', getElem?_of_isPrefix hprefix hori, hrefs ▸ hdata⟩

/-- The poller takes the callback out of the iocb of the event at hand.  But for
its local this is the step to `p₁`, which gives nobody anything new. -/
theorem Matched.take {rest : List IoEvent} (ev : IoEvent) (p₁ : Pc) (h : Matched s)
    (hs : s'.transfers = s.transfers)
    (hiocb : s'.iocb = Function.update s.iocb ev.obj { s.iocb ev.obj with data := .null })
    (hrefs : s'.refs = s.refs) (hpc : s'.pc = Function.update s.pc t p)
    (hbefore : s.view t = { batch := ev :: rest })
    (hafter : p.view s.events = { batch := rest, hand := some (ev.op, (s.iocb ev.obj).data) })
    (hafter₁ : p₁.view s.events = { batch := rest })
    (hnot : ∀ q, ev.obj ∉ s'.loaded q) : Matched s' := by
  let s₁ : State Tid := { s' with pc := Function.update s.pc t p₁ }
  have hs' := hs
  simp only [State.transfers, Prod.mk.injEq] at hs'
  obtain ⟨hacc, -, -, he⟩ := hs'
  obtain ⟨ht, hu⟩ := view_update he hpc
  have hpc₁ : s₁.pc = Function.update s.pc t p₁ := rfl
  obtain ⟨ht₁, hu₁⟩ := view_update (show s₁.events = s.events from he) hpc₁
  rw [hafter] at ht
  rw [hafter₁] at ht₁
  have hview : ∀ u, (s'.view u).batch = (s₁.view u).batch ∧
      (s'.view u).prepared = (s₁.view u).prepared ∧ (s'.view u).failed = (s₁.view u).failed := by
    intro u
    by_cases hut : u = t
    · subst hut
      simp [ht, ht₁]
    · simp [hu u hut, hu₁ u hut]
  have hhand : ∀ u x, (s'.view u).hand = some x →
      (s₁.view u).hand = some x ∨ (u = t ∧ x = (ev.op, (s.iocb ev.obj).data)) := by
    intro u x hx
    by_cases hut : u = t
    · subst hut
      rw [ht] at hx
      exact .inr ⟨rfl, (Option.some.inj hx).symm⟩
    · rw [hu u hut] at hx
      rw [hu₁ u hut]
      exact .inl hx
  have hreq : ∀ q, s'.requests q = s₁.requests q := by
    intro q
    cases q with
    | none => rfl
    | some u => simp only [State.requests, (hview u).1]
  have hload : ∀ q, s'.loaded q = s₁.loaded q := by
    intro q
    cases q with
    | none => rfl
    | some u => simp only [State.loaded, View.loaded, hview u]
  have hk : Keeps s s₁ := by
    refine .of_view hs rfl ?_ (fun q d hd => ?_) fun _ r _ => congrArg (·.live r) hrefs
    · rw [hafter₁, hbefore]
      exact .of_batch (List.subset_cons_self _ _)
    · rw [← hload] at hd
      have hne : d ≠ ev.obj := fun he => hnot q (he ▸ hd)
      exact (congrFun hiocb d).trans (Function.update_of_ne hne _ _)
  have hm := h.keeps hk
  have hev : (ev.obj, ev.op) ∈ s.requests (some t) := by simp [State.requests, hbefore]
  have href : ∀ x r, s'.RefAt x r →
      s₁.RefAt x r ∨ (x = .hand t ∧ s.RefAt (.iocb ev.obj) r) := by
    intro x r hx
    cases x with
    | iocb d =>
      obtain ⟨⟨q, hq⟩, hd⟩ := hx
      exact .inl ⟨⟨q, hload q ▸ hq⟩, hd⟩
    | hand u =>
      obtain ⟨o, ho⟩ := hx
      rcases hhand u _ ho with ho | ⟨rfl, ho⟩
      · exact .inl ⟨o, ho⟩
      · refine .inr ⟨rfl, ⟨some u, State.mem_loaded.mpr (.inl ⟨ev.op, hev⟩)⟩, ?_⟩
        exact (Prod.mk.inj ho).2.symm
  -- the iocb has given its reference away
  have hgone : ∀ x r, s₁.RefAt x r → ¬s.RefAt (.iocb ev.obj) r := by
    intro x r hx hr
    obtain rfl := h.apart x _ r (hk.refAt hx) hr
    obtain ⟨⟨q, hq⟩, -⟩ := hx
    exact hnot q (hload q ▸ hq)
  refine ⟨?_, ?_, ?_, ?_, ?_⟩
  · exact fun q d o ho => hm.transit q d o (hreq q ▸ ho)
  · exact fun u a d hp => hm.prepared u a d ((hview u).2.1 ▸ hp)
  · exact fun u d hf => hm.failed u d ((hview u).2.2 ▸ hf)
  · intro u o obj ho
    rcases hhand u _ ho with ho | ⟨rfl, ho⟩
    · exact hm.hand u o obj ho
    · obtain ⟨rfl, rfl⟩ := Prod.mk.inj ho
      obtain ⟨origin, hori, hdata, -⟩ := h.transit _ _ _ hev
      exact ⟨origin, hacc ▸ hori, hrefs ▸ hdata⟩
  · intro x y r hx hy
    rcases href x r hx with hx | ⟨rfl, hr⟩ <;> rcases href y r hy with hy | ⟨rfl, hr'⟩
    · exact hm.apart x y r hx hy
    · exact absurd hr' (hgone x r hx)
    · exact absurd hr (hgone y r hy)
    · rfl

/-! ### The kernel and the batches -/

theorem Pc.view_of_not_inBatch (events events' : ℕ → IoEvent) (h : p.inBatch = false) :
    p.view events = p.view events' := by
  cases p with
  | idle o => rfl
  | submit p => cases p <;> rfl
  | blocked p =>
    cases p with
    | event f st => simp [inBatch] at h
    | _ => rfl
  | poll p =>
    cases p with
    | event f st => simp [inBatch] at h
    | _ => rfl
  | close p =>
    cases p with
    | put i result => simp [inBatch] at h
    | _ => rfl

omit [DecidableEq Tid] in
/-- The kernel moves or forgets requests. -/
theorem Matched.kernel (h : Matched s) (hview : ∀ u, s'.view u = s.view u)
    (hacc : s'.accepted = s.accepted) (hiocb : s'.iocb = s.iocb) (hrefs : s'.refs = s.refs)
    (hreq : s'.requests none ⊆ s.requests none) : Matched s' := by
  refine h.keeps ⟨hacc ▸ List.prefix_rfl, ?_, ?_, ?_, ?_, fun _ b _ => congrFun hiocb b,
    fun _ r _ => by rw [hrefs]⟩
  · intro q x hx
    refine ⟨q, ?_⟩
    cases q with
    | none => exact hreq hx
    | some u => simpa only [State.requests, hview u] using hx
  · exact fun u x hx => hview u ▸ hx
  · exact fun u b hb => .inl (hview u ▸ hb)
  · exact fun u x hx => hview u ▸ hx

omit [DecidableEq Tid] in
theorem Matched.complete {k : ℕ} {res : ℤ} {r : Request} (h : Matched s)
    (hr : s.inflight[k]? = some r) : Matched (s.complete k ⟨r.obj, res, r.op⟩) := by
  refine h.kernel (fun _ => rfl) rfl rfl rfl ?_
  have hmem : r ∈ s.inflight := List.mem_of_getElem? hr
  intro x hx
  simp only [State.requests, State.complete, List.map_append, List.map_cons, List.map_nil,
    List.mem_append, List.mem_singleton] at hx ⊢
  rcases hx with hx | hx | rfl
  · exact .inl (List.map_subset _ (List.eraseIdx_subset) hx)
  · exact .inr hx
  · exact .inl (List.mem_map.mpr ⟨r, hmem, rfl⟩)

/-- A thread reads the `k` oldest events. -/
theorem Matched.read {k : ℕ} (obs : ℕ → Obs) (h : Matched s) (hk : k ≤ s.ring.length)
    (hs : s'.transfers = (s.getEvents k obs).transfers) (hiocb : s'.iocb = s.iocb)
    (hrefs : s'.refs = s.refs) (hpc : s'.pc = Function.update s.pc t p)
    (hout : ∀ u, u ≠ t → (s.pc u).inBatch = false)
    (hp : ∀ ev, p.view ev = { batch := eventsFrom ev 0 k }) : Matched s' := by
  simp only [State.transfers, State.getEvents, Prod.mk.injEq] at hs
  obtain ⟨hacc, hi, hr, he⟩ := hs
  have hbatch : (s'.view t).batch = s.ring.take k := by
    have hev : s'.events = (s.getEvents k obs).events := he
    rw [State.view, hpc, Function.update_self, hp, hev]
    exact eventsFrom_getEvents obs hk
  have hnew : ∀ u, u = t ∨ s'.view u = s.view u := by
    intro u
    by_cases hut : u = t
    · exact .inl hut
    · right
      rw [State.view, hpc, Function.update_of_ne hut, State.view]
      exact Pc.view_of_not_inBatch _ _ (hout u hut)
  have ht : s'.view t = { batch := s.ring.take k } := by
    rw [← hbatch, State.view, hpc, Function.update_self, hp]
  refine h.keeps ⟨hacc ▸ List.prefix_rfl, ?_, ?_, ?_, ?_, fun _ b _ => congrFun hiocb b,
    fun _ r _ => by rw [hrefs]⟩
  · intro q x hx
    cases q with
    | none =>
      refine ⟨none, ?_⟩
      simp only [State.requests, hi, hr, List.mem_append] at hx ⊢
      exact hx.imp_right fun hx => List.map_subset _ (List.drop_subset _ _) hx
    | some u =>
      rcases hnew u with rfl | hu
      · refine ⟨none, ?_⟩
        simp only [State.requests, ht] at hx
        exact List.mem_append_right _ (List.map_subset _ (List.take_subset _ _) hx)
      · exact ⟨some u, by simpa only [State.requests, hu] using hx⟩
  · intro u x hx
    rcases hnew u with rfl | hu
    · simp [ht] at hx
    · exact hu ▸ hx
  · intro u x hx
    rcases hnew u with rfl | hu
    · simp [ht] at hx
    · exact .inl (hu ▸ hx)
  · intro u x hx
    rcases hnew u with rfl | hu
    · simp [ht] at hx
    · exact hu ▸ hx

/-! ### Every step keeps it -/

theorem GlobalRefs.new_names (g : GlobalRefs) (callback : Option ℕ) :
    (g.new callback).2.Names (g.new callback).1 callback := by
  cases callback with
  | none => rfl
  | some c => exact ⟨g.fresh, rfl, Function.update_self _ _ _⟩

theorem GlobalRefs.new_live {g : GlobalRefs} {r : ℕ} (callback : Option ℕ)
    (hr : g.live r ≠ none) : (g.new callback).2.live r = g.live r := by
  cases callback with
  | none => rfl
  | some c =>
    refine Function.update_of_ne ?_ _ _
    rintro rfl
    exact hr (g.live_fresh _ le_rfl)

theorem GlobalRefs.new_fresh {g : GlobalRefs} {r : ℕ} {callback : Option ℕ}
    (hr : (g.new callback).1 = .ref r) : g.live r = none := by
  cases callback with
  | none => cases hr
  | some c =>
    obtain rfl := IocbData.ref.inj hr
    exact g.live_fresh _ le_rfl

theorem Matched.submit {q : SubmitPc} (h : Matched s) (hown : Owned cfg s)
    (hpc : s.pc t = .submit q) (hm : SubmitMoves cfg s t ans q s') : Matched s' := by
  cases hm with
  | prepared a b =>
    refine h.prepare hown (a := some a) (b := b) rfl rfl rfl ?_ ?_ rfl ⟨0, ?_, rfl⟩
      (fun r hr => GlobalRefs.new_live _ hr) (fun r hr => GlobalRefs.new_fresh hr)
    · rw [hpc]
      exact List.mem_singleton_self b
    · rw [State.view, hpc]
      rfl
    · exact s.refs.new_names a.callback
  | rejected a b _ =>
    refine h.move rfl rfl rfl rfl ⟨nofun, nofun, fun d hd => .inr ⟨a, ?_⟩, nofun⟩
    obtain rfl := Option.some.inj hd
    rw [State.view, hpc]
    rfl
  | accepted a b _ _ =>
    exact h.accept (a := some a) rfl rfl rfl rfl (by rw [State.view, hpc]; rfl) rfl rfl
  | refDeleted b errno =>
    have hb : b ∈ s.loaded (some t) := by
      rw [State.loaded, State.view, hpc]
      exact List.mem_singleton_self b
    refine h.delete (.iocb b) rfl rfl rfl rfl (.empty _) fun r hr => ⟨⟨⟨_, hb⟩, hr⟩, ?_⟩
    have hfree : ∀ q, b ∉ (s.goto t (.submit (.putIOCB b errno))).loaded q :=
      hown.not_loaded rfl rfl (by rw [hpc]; exact List.mem_singleton_self b)
        (by simp [Pc.view, View.loaded])
    rintro ⟨⟨q, hq⟩, -⟩
    exact hfree q hq
  | _ => exact h.move rfl rfl rfl rfl (.empty _)

theorem Matched.event {f : Frame} {st : Stage} (h : Matched s) (hown : Owned cfg s)
    (hpc : s.pc t = .blocked (.event f st)) (hm : EventMoves cfg s t ans f st s') :
    Matched s' := by
  -- the iocb of the event at hand is not in the rest of the batch
  have hnotin : (s.pc t).holds s.events
        = (s.events f.i).obj :: objsFrom s.events (f.i + 1) f.result →
      (s.events f.i).obj ∉ objsFrom s.events (f.i + 1) f.result := by
    intro hh
    have hnd := hown.custody.nodup (some t)
    rw [show s.holders (some t) = _ from hh] at hnd
    exact (List.nodup_cons.mp hnd).1
  cases hm with
  | isStop hlt _ =>
    refine h.move rfl rfl rfl rfl (.of_batch ?_)
    rw [State.view, hpc]
    simp only [Pc.view, Stage.view, eventsFrom_of_lt hlt]
    exact List.cons_subset_cons _ (List.nil_subset _)
  | isEvent hlt _ =>
    refine h.move rfl rfl rfl rfl (.of_batch ?_)
    rw [State.view, hpc]
    simp only [Pc.view, Stage.view, eventsFrom_of_lt hlt]
    exact List.Subset.refl _
  | batchEnd _ | stopped => exact h.move rfl rfl rfl rfl (.empty _)
  | takenNull _ =>
    have hfree : ∀ q, (s.events f.i).obj ∉ (s.goto t (.blocked (.event f .warn))).loaded q :=
      hown.not_loaded rfl rfl (by rw [hpc]; exact List.mem_cons_self)
        (by simpa [Pc.view, Stage.view, View.loaded, objsFrom] using hnotin (by rw [hpc]; rfl))
    refine h.keeps (.of_view rfl rfl ?_ (fun q d hd => ?_) fun _ _ _ => rfl)
    · rw [State.view, hpc]
      exact .of_batch (List.subset_cons_self _ _)
    · refine Function.update_of_ne ?_ _ _
      rintro rfl
      exact hfree q hd
  | taken _ =>
    refine h.take (s.events f.i) (.blocked (.event f .warn)) rfl rfl rfl rfl
      (by rw [State.view, hpc]; rfl) rfl rfl ?_
    exact hown.not_loaded rfl rfl (by rw [hpc]; exact List.mem_cons_self)
      (by simpa [Pc.view, Stage.view, View.loaded, objsFrom] using hnotin (by rw [hpc]; rfl))
  | refDeleted obj =>
    refine h.delete (.hand t) rfl rfl rfl rfl ?_ fun r hr => ⟨⟨(s.events f.i).op, ?_⟩, ?_⟩
    · rw [State.view, hpc]
      exact .of_batch (List.Subset.refl _)
    · rw [State.view, hpc, hr]
      rfl
    · rintro ⟨o, ho⟩
      simp [State.view, State.goto, Pc.view, Stage.view] at ho
  | _ =>
    refine h.move rfl rfl rfl rfl ?_
    rw [State.view, hpc]
    exact .refl _

theorem Matched.blocked {q : BlockedPc} (h : Matched s) (hown : Owned cfg s)
    (hpc : s.pc t = .blocked q) (hal : ReadsAlone s (.step t ans))
    (hm : BlockedMoves cfg s t ans q s') : Matched s' := by
  cases hm with
  | readInterrupted f _ => exact h
  | read f k _ hk =>
    exact h.read .reaped hk rfl rfl rfl rfl (hal (by rw [hpc]; rfl)) fun _ => rfl
  | event f st _ hm => exact h.event hown hpc hm
  | _ => exact h.move rfl rfl rfl rfl (.empty _)

theorem Matched.poll {q : PollPc} (h : Matched s) (hown : Owned cfg s)
    (hpc : s.pc t = .poll q) (hal : ReadsAlone s (.step t ans))
    (hm : PollMoves cfg s t ans q s') : Matched s' := by
  cases hm with
  | read callbacks min max k _ hk =>
    exact h.read .polled hk rfl rfl rfl rfl (hal (by rw [hpc]; rfl)) fun _ => rfl
  | noError f hlt _ | errorSkipped f hlt _ _ | errorCalled f hlt _ _ _ =>
    refine h.move rfl rfl rfl rfl (.of_batch ?_)
    rw [State.view, hpc]
    simp only [Pc.view, eventsFrom_of_lt hlt]
    exact List.Subset.refl _
  | notStored f _ =>
    refine h.move rfl rfl rfl rfl (.of_batch ?_)
    rw [State.view, hpc]
    exact List.subset_cons_self _ _
  | refDeleted f =>
    have hb : (s.events f.i).obj ∈ s.loaded (some t) := by
      rw [State.loaded, State.view, hpc]
      simp [Pc.view, View.loaded]
    have hnd := hown.custody.nodup (some t)
    rw [State.holders, hpc] at hnd
    refine h.delete (.iocb (s.events f.i).obj) rfl rfl rfl rfl ?_ fun r hr =>
      ⟨⟨⟨_, hb⟩, hr⟩, ?_⟩
    · rw [State.view, hpc]
      exact .of_batch (List.subset_cons_self _ _)
    · have hfree : ∀ q, (s.events f.i).obj ∉ (s.goto t (.poll (.event f .put))).loaded q :=
        hown.not_loaded rfl rfl (by rw [hpc]; exact List.mem_cons_self)
          (by simpa [Pc.view, View.loaded, objsFrom] using (List.nodup_cons.mp hnd).1)
      rintro ⟨⟨q, hq⟩, -⟩
      exact hfree q hq
  | put f =>
    refine h.move rfl rfl rfl rfl ?_
    rw [State.view, hpc]
    exact .refl _
  | stored f _ _ _ | storeThrew f _ _ =>
    refine h.move rfl rfl rfl rfl ?_
    rw [State.view, hpc]
    exact .refl _
  | _ => exact h.move rfl rfl rfl rfl (.empty _)

theorem Matched.close {q : ClosePc} (h : Matched s) (hown : Owned cfg s)
    (hpc : s.pc t = .close q) (hal : ReadsAlone s (.step t ans))
    (hm : CloseMoves cfg s t ans q s') : Matched s' := by
  cases hm with
  | prepared b =>
    refine h.prepare hown (a := none) (b := b) rfl rfl rfl ?_ ?_ rfl
      ⟨s.dumbWriteHandler, rfl, rfl⟩ (fun _ _ => rfl) nofun
    · rw [hpc]
      exact List.mem_singleton_self b
    · rw [State.view, hpc]
      rfl
  | accepted b _ _ =>
    exact h.accept (a := none) rfl rfl rfl rfl (by rw [State.view, hpc]; rfl) rfl rfl
  | read k _ hk =>
    exact h.read .discarded hk rfl rfl rfl rfl (hal (by rw [hpc]; rfl)) fun _ => rfl
  | put i result hlt =>
    refine h.move rfl rfl rfl rfl (.of_batch ?_)
    rw [State.view, hpc]
    simp only [Pc.view, eventsFrom_of_lt hlt]
    exact List.subset_cons_self _ _
  | queueReleased =>
    -- nothing is in transit at the kernel any more
    have hm : Matched { s with inflight := [], ring := [] } :=
      h.kernel (fun _ => rfl) rfl rfl rfl (List.nil_subset _)
    exact hm.move rfl rfl rfl rfl (.empty _)
  | _ => exact h.move rfl rfl rfl rfl (.empty _)

/-- **Every event answers the request that its iocb was prepared for**, whatever
has become of the iocb before, in every step of a run in which the kernel
delivers each event once and no thread reads into a buffer in use. -/
theorem Matched.step (h : Matched s) (hown : Owned cfg s) (honce : DeliversOnce l)
    (hal : ReadsAlone s l) (hn : next cfg s l = some s') : Matched s' := by
  cases next_moves hn with
  | call t o m _ hpc hm => cases hm <;> exact h.move rfl rfl rfl rfl (.empty _)
  | submit t ans q _ hpc hm => exact h.submit hown hpc hm
  | blocked t ans q _ hpc hm => exact h.blocked hown hpc hal hm
  | poll t ans q _ hpc hm => exact h.poll hown hpc hal hm
  | close t ans q _ hpc hm => exact h.close hown hpc hal hm
  | complete k res r hr _ => exact h.complete hr
  | redeliver k ev _ => exact honce.elim
  | setForceSyscall value => exact ⟨h.transit, h.prepared, h.failed, h.hand, h.apart⟩
  | closeDumbHandlers => exact ⟨h.transit, h.prepared, h.failed, h.hand, h.apart⟩

omit [DecidableEq Tid] in
theorem Matched.initial (env : Process) : Matched (.initial cfg env : State Tid) where
  transit := by
    intro q b o ho
    cases q <;> simp [State.requests, State.view, State.initial, Pc.view] at ho
  prepared := nofun
  failed := nofun
  hand := nofun
  apart := by
    rintro (b | t) y r hx
    · obtain ⟨⟨q, hq⟩, -⟩ := hx
      cases q <;>
        simp [State.loaded, State.requests, View.loaded, State.view, State.initial, Pc.view] at hq
    · obtain ⟨o, ho⟩ := hx
      cases ho

theorem Matched.of_reaches {env : Process} (hq : 0 < cfg.queueSize)
    (hr : Reaches (next cfg) Orderly (.initial cfg env) s) : Owned cfg s ∧ Matched s := by
  refine hr.invariant (I := fun s => Owned cfg s ∧ Matched s) ⟨.initial hq env, .initial env⟩ ?_
  rintro s l s' ⟨hown, h⟩ hP hn
  exact ⟨hown.step hP.1 hP.2 hn, h.step hown hP.1 hP.2 hn⟩

end ArtemisNative
