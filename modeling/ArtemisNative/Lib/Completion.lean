/-
ArtemisNative/Lib/Completion.lean

Completion queues.

Requests are accepted and numbered; each is completed at most once, in any
order, with some result.  The completed requests wait in a queue.  The one at its
head is handed over to the client who asked for it: first, if the request has
failed, by a notice, then by a report.  A request without a client is passed
over.  A request that `stops` the service, once accepted, allows it to pass over
the others as well, and to cancel what is at the end of the queue.

`next` is the queue as a step function and `Lawful` what it is for: nobody is told
anything but the truth about his own request, in the order of completion, once,
and as long as nothing stops the service nobody is left out.  It is so in every
run (`Lawful.of_reaches`).
-/
import ArtemisNative.Lib.Transition
import Mathlib.Data.List.Nodup

/-- Requests are known by their position in `accepted`. -/
structure CompletionQueue (ρ ε κ : Type*) where
  accepted : List ρ
  completed : List (ℕ × ε)
  queue : List (ℕ × ε)
  notices : List (ℕ × κ × ε)
  reports : List (ℕ × κ)

namespace CompletionQueue

open Transition

variable {ρ ε κ : Type*}

/-- What the queue knows about requests and results. -/
structure Protocol (ρ ε κ : Type*) where
  client : ρ → Option κ
  failed : ε → Bool
  stops : ρ → Bool

inductive Label (ρ ε : Type*)
  | accept (r : ρ)
  | complete (o : ℕ) (e : ε)
  | notice
  | report
  | skip
  | cancel (n : ℕ)

def empty : CompletionQueue ρ ε κ := ⟨[], [], [], [], []⟩

/-- The client of request `o`. -/
def client (p : Protocol ρ ε κ) (s : CompletionQueue ρ ε κ) (o : ℕ) : Option κ :=
  (s.accepted[o]?).bind p.client

def stopping (p : Protocol ρ ε κ) (s : CompletionQueue ρ ε κ) : Bool := s.accepted.any p.stops

def next (p : Protocol ρ ε κ) (s : CompletionQueue ρ ε κ) :
    Label ρ ε → Option (CompletionQueue ρ ε κ)
  | .accept r => some { s with accepted := s.accepted ++ [r] }
  | .complete o e =>
    if o < s.accepted.length ∧ o ∉ s.completed.map Prod.fst then
      some { s with completed := s.completed ++ [(o, e)], queue := s.queue ++ [(o, e)] }
    else
      none
  | .notice =>
    match s.queue with
    | [] => none
    | (o, e) :: _ =>
      match s.client p o with
      | none => none
      | some c =>
        if p.failed e ∧ o ∉ s.notices.map Prod.fst then
          some { s with notices := s.notices ++ [(o, c, e)] }
        else
          none
  | .report =>
    match s.queue with
    | [] => none
    | (o, e) :: queue =>
      match s.client p o with
      | none => none
      | some c =>
        if p.failed e → o ∈ s.notices.map Prod.fst then
          some { s with queue := queue, reports := s.reports ++ [(o, c)] }
        else
          none
  | .skip =>
    match s.queue with
    | [] => none
    | (o, _) :: queue =>
      if s.client p o = none ∨ s.stopping p then some { s with queue := queue } else none
  | .cancel n => if s.stopping p then some { s with queue := s.queue.take n } else none

/-- What a step does, with its guard. -/
inductive Step (p : Protocol ρ ε κ) (s : CompletionQueue ρ ε κ) : CompletionQueue ρ ε κ → Prop
  | accept (r : ρ) : Step p s { s with accepted := s.accepted ++ [r] }
  | complete (o : ℕ) (e : ε) (hlt : o < s.accepted.length)
      (hnew : o ∉ s.completed.map Prod.fst) :
      Step p s { s with completed := s.completed ++ [(o, e)], queue := s.queue ++ [(o, e)] }
  | notice (o : ℕ) (e : ε) (queue : List (ℕ × ε)) (c : κ) (hq : s.queue = (o, e) :: queue)
      (hc : s.client p o = some c) (hfail : p.failed e = true)
      (hnew : o ∉ s.notices.map Prod.fst) :
      Step p s { s with notices := s.notices ++ [(o, c, e)] }
  | report (o : ℕ) (e : ε) (queue : List (ℕ × ε)) (c : κ) (hq : s.queue = (o, e) :: queue)
      (hc : s.client p o = some c) (hsaid : p.failed e = true → o ∈ s.notices.map Prod.fst) :
      Step p s { s with queue := queue, reports := s.reports ++ [(o, c)] }
  | skip (o : ℕ) (e : ε) (queue : List (ℕ × ε)) (hq : s.queue = (o, e) :: queue)
      (hmay : s.client p o = none ∨ s.stopping p = true) : Step p s { s with queue := queue }
  | cancel (n : ℕ) (hstop : s.stopping p = true) : Step p s { s with queue := s.queue.take n }

variable {p : Protocol ρ ε κ} {s s' : CompletionQueue ρ ε κ} {l : Label ρ ε} {o : ℕ} {e : ε} {c : κ}

theorem next_step (hn : s.next p l = some s') : Step p s s' := by
  cases l with
  | accept r =>
    obtain rfl := Option.some.inj hn
    exact .accept r
  | complete o e =>
    simp only [next] at hn
    split at hn
    · rename_i hg
      obtain rfl := Option.some.inj hn
      exact .complete o e hg.1 hg.2
    · cases hn
  | notice =>
    simp only [next] at hn
    split at hn
    · cases hn
    · rename_i o e queue hq
      split at hn
      · cases hn
      · rename_i c hc
        split at hn
        · rename_i hg
          obtain rfl := Option.some.inj hn
          exact .notice o e queue c hq hc hg.1 hg.2
        · cases hn
  | report =>
    simp only [next] at hn
    split at hn
    · cases hn
    · rename_i o e queue hq
      split at hn
      · cases hn
      · rename_i c hc
        split at hn
        · rename_i hg
          obtain rfl := Option.some.inj hn
          exact .report o e queue c hq hc hg
        · cases hn
  | skip =>
    simp only [next] at hn
    split at hn
    · cases hn
    · rename_i o e queue hq
      split at hn
      · rename_i hmay
        obtain rfl := Option.some.inj hn
        exact .skip o e queue hq hmay
      · cases hn
  | cancel n =>
    simp only [next] at hn
    split at hn
    · rename_i hstop
      obtain rfl := Option.some.inj hn
      exact .cancel n hstop
    · cases hn

/-- Each of these steps can be taken. -/
theorem Step.reaches (h : Step p s s') : Reaches (next p) (fun _ _ => True) s s' := by
  have hone : ∀ l, s.next p l = some s' → Reaches (next p) (fun _ _ => True) s s' :=
    fun l hl => .head trivial hl (.refl _)
  cases h with
  | accept r => exact hone (.accept r) rfl
  | complete o e hlt hnew =>
    apply hone (.complete o e)
    simp only [next]
    rw [if_pos ⟨hlt, hnew⟩]
  | notice o e queue c hq hc hfail hnew =>
    apply hone .notice
    simp only [next, hq, hc]
    rw [if_pos ⟨hfail, hnew⟩]
  | report o e queue c hq hc hsaid =>
    apply hone .report
    simp only [next, hq, hc]
    rw [if_pos hsaid]
  | skip o e queue hq hmay =>
    apply hone .skip
    simp only [next, hq]
    rw [if_pos hmay]
  | cancel n hstop =>
    apply hone (.cancel n)
    simp only [next]
    rw [if_pos hstop]

/-- A service that stops may pass over as many requests as it likes. -/
theorem reaches_skip {dropped queue : List (ℕ × ε)} (hstop : s.stopping p = true)
    (hq : s.queue = dropped ++ queue) :
    Reaches (next p) (fun _ _ => True) s { s with queue := queue } := by
  induction dropped generalizing s with
  | nil =>
    obtain rfl : s.queue = queue := hq
    exact .refl _
  | cons x dropped ih =>
    have hskip : Step p s { s with queue := dropped ++ queue } :=
      .skip x.1 x.2 (dropped ++ queue) hq (.inr hstop)
    have hrest := ih (s := { s with queue := dropped ++ queue }) hstop rfl
    exact hskip.reaches.trans hrest

/-! ### What the queue is for -/

/-- The report that a completed request asks for. -/
def due (p : Protocol ρ ε κ) (s : CompletionQueue ρ ε κ) (x : ℕ × ε) : Option (ℕ × κ) :=
  (s.client p x.1).map (x.1, ·)

structure Lawful (p : Protocol ρ ε κ) (s : CompletionQueue ρ ε κ) : Prop where
  known : ∀ x ∈ s.completed, x.1 < s.accepted.length
  once : (s.completed.map Prod.fst).Nodup
  /-- what has been reported and what waits, in the order of completion -/
  order : (s.reports.map Prod.fst ++ s.queue.map Prod.fst).Sublist (s.completed.map Prod.fst)
  waits : s.queue.Sublist s.completed
  own : ∀ o c, (o, c) ∈ s.reports → s.client p o = some c
  said : ∀ o c e, (o, c, e) ∈ s.notices →
    s.client p o = some c ∧ (o, e) ∈ s.completed ∧ p.failed e = true
  saidOnce : (s.notices.map Prod.fst).Nodup
  warned : ∀ o c e, (o, c) ∈ s.reports → (o, e) ∈ s.completed → p.failed e = true →
    (o, c, e) ∈ s.notices
  complete : s.stopping p = false →
    s.reports ++ s.queue.filterMap (s.due p) = s.completed.filterMap (s.due p)

/-- A request keeps its client when others are accepted. -/
theorem client_append (r : ρ) (ho : o < s.accepted.length) :
    client p { s with accepted := s.accepted ++ [r] } o = s.client p o := by
  rw [client, client, List.getElem?_append_left ho]

theorem lt_of_client (h : s.client p o = some c) : o < s.accepted.length := by
  by_contra hlt
  rw [client, List.getElem?_eq_none (by omega)] at h
  cases h

namespace Lawful

/-- There is one result of a request. -/
theorem result_unique (h : s.Lawful p) {e e' : ε} (he : (o, e) ∈ s.completed)
    (he' : (o, e') ∈ s.completed) : e = e' :=
  (Prod.mk.inj (List.inj_on_of_nodup_map h.once he he' rfl)).2

theorem accept (h : s.Lawful p) (r : ρ) :
    Lawful p { s with accepted := s.accepted ++ [r] } := by
  have hclient : ∀ {o}, o < s.accepted.length →
      client p { s with accepted := s.accepted ++ [r] } o = s.client p o := client_append r
  refine ⟨fun x hx => ?_, h.once, h.order, h.waits, fun o c hc => ?_, fun o c e hm => ?_,
    h.saidOnce, h.warned, fun hstop => ?_⟩
  · have := h.known x hx
    simp only [List.length_append, List.length_singleton]
    omega
  · have hown := h.own o c hc
    rw [hclient (lt_of_client hown)]
    exact hown
  · obtain ⟨hc, hrest⟩ := h.said o c e hm
    rw [hclient (lt_of_client hc)]
    exact ⟨hc, hrest⟩
  · have hold : s.stopping p = false := by
      simp only [stopping, List.any_append, Bool.or_eq_false_iff] at hstop
      exact hstop.1
    have hdue : ∀ x ∈ s.completed,
        due p { s with accepted := s.accepted ++ [r] } x = s.due p x := by
      intro x hx
      rw [due, due, hclient (h.known x hx)]
    rw [List.filterMap_congr fun x hx => hdue x (h.waits.subset hx), List.filterMap_congr hdue]
    exact h.complete hold

theorem completed (h : s.Lawful p) (hlt : o < s.accepted.length)
    (hnew : o ∉ s.completed.map Prod.fst) :
    Lawful p { s with completed := s.completed ++ [(o, e)], queue := s.queue ++ [(o, e)] } where
  known := by
    intro x hx
    rcases List.mem_append.mp hx with hx | hx
    · exact h.known x hx
    · rw [List.mem_singleton.mp hx]
      exact hlt
  once := by
    rw [List.map_append]
    refine List.nodup_append.mpr ⟨h.once, List.nodup_singleton _, ?_⟩
    rintro x hx y hy rfl
    rw [List.mem_singleton.mp hy] at hx
    exact hnew hx
  order := by
    rw [List.map_append, List.map_append, ← List.append_assoc]
    exact h.order.append (.refl _)
  waits := h.waits.append (.refl _)
  own := h.own
  said := fun o' c e' hm =>
    ⟨(h.said o' c e' hm).1, List.mem_append_left _ (h.said o' c e' hm).2.1, (h.said o' c e' hm).2.2⟩
  saidOnce := h.saidOnce
  warned := by
    intro o' c e' hr he' hfail
    rcases List.mem_append.mp he' with he' | he'
    · exact h.warned o' c e' hr he' hfail
    · -- it has not been reported before it was completed
      have hmem := h.order.subset (List.mem_append_left _ (List.mem_map_of_mem (f := Prod.fst) hr))
      obtain ⟨rfl, -⟩ := Prod.mk.inj (List.mem_singleton.mp he')
      exact absurd hmem hnew
  complete := by
    intro hstop
    show s.reports ++ (s.queue ++ [(o, e)]).filterMap (s.due p)
      = (s.completed ++ [(o, e)]).filterMap (s.due p)
    rw [List.filterMap_append, List.filterMap_append, ← List.append_assoc, h.complete hstop]

theorem notice {queue : List (ℕ × ε)} (h : s.Lawful p) (hq : s.queue = (o, e) :: queue)
    (hc : s.client p o = some c) (hfail : p.failed e = true)
    (hnew : o ∉ s.notices.map Prod.fst) :
    Lawful p { s with notices := s.notices ++ [(o, c, e)] } where
  known := h.known
  once := h.once
  order := h.order
  waits := h.waits
  own := h.own
  said := by
    intro o' c' e' hm
    rcases List.mem_append.mp hm with hm | hm
    · exact h.said o' c' e' hm
    · cases List.mem_singleton.mp hm
      exact ⟨hc, h.waits.subset (hq ▸ List.mem_cons_self), hfail⟩
  saidOnce := by
    rw [List.map_append]
    refine List.nodup_append.mpr ⟨h.saidOnce, List.nodup_singleton _, ?_⟩
    rintro x hx y hy rfl
    rw [List.mem_singleton.mp hy] at hx
    exact hnew hx
  warned := fun o' c' e' hr he' hfail' =>
    List.mem_append_left _ (h.warned o' c' e' hr he' hfail')
  complete := h.complete

theorem report {queue : List (ℕ × ε)} (h : s.Lawful p) (hq : s.queue = (o, e) :: queue)
    (hc : s.client p o = some c) (hsaid : p.failed e = true → o ∈ s.notices.map Prod.fst) :
    Lawful p { s with queue := queue, reports := s.reports ++ [(o, c)] } where
  known := h.known
  once := h.once
  order := by
    have horder := h.order
    rw [hq] at horder
    simpa using horder
  waits := (List.sublist_cons_self _ _).trans (hq ▸ h.waits)
  own := by
    intro o' c' hr
    rcases List.mem_append.mp hr with hr | hr
    · exact h.own o' c' hr
    · cases List.mem_singleton.mp hr
      exact hc
  said := h.said
  saidOnce := h.saidOnce
  warned := by
    intro o' c' e' hr he' hfail
    rcases List.mem_append.mp hr with hr | hr
    · exact h.warned o' c' e' hr he' hfail
    · cases List.mem_singleton.mp hr
      obtain rfl := h.result_unique he' (h.waits.subset (hq ▸ List.mem_cons_self))
      obtain ⟨⟨o'', c'', e''⟩, hm, rfl⟩ := List.mem_map.mp (hsaid hfail)
      -- the notice went to the client, with the result
      obtain ⟨hc', he'', -⟩ := h.said o'' c'' e'' hm
      obtain rfl := Option.some.inj (hc.symm.trans hc')
      obtain rfl := h.result_unique he' he''
      exact hm
  complete := by
    intro hstop
    have hall := h.complete hstop
    have hdue : s.due p (o, e) = some (o, c) := by rw [due, hc]; rfl
    rw [hq, List.filterMap_cons_some hdue] at hall
    show (s.reports ++ [(o, c)]) ++ queue.filterMap (s.due p) = s.completed.filterMap (s.due p)
    rw [List.append_assoc]
    exact hall

theorem skip {queue : List (ℕ × ε)} (h : s.Lawful p) (hq : s.queue = (o, e) :: queue)
    (hmay : s.client p o = none ∨ s.stopping p = true) : Lawful p { s with queue := queue } where
  known := h.known
  once := h.once
  order := by
    refine .trans (.append (.refl _) ?_) h.order
    rw [hq]
    exact List.sublist_cons_self _ _
  waits := (List.sublist_cons_self _ _).trans (hq ▸ h.waits)
  own := h.own
  said := h.said
  saidOnce := h.saidOnce
  warned := h.warned
  complete := by
    intro hstop
    rcases hmay with hnone | hyes
    · have hall := h.complete hstop
      have hdue : s.due p (o, e) = none := by rw [due, hnone]; rfl
      rw [hq, List.filterMap_cons_none hdue] at hall
      exact hall
    · exact absurd hyes (Bool.eq_false_iff.mp hstop)

theorem cancel (n : ℕ) (h : s.Lawful p) (hyes : s.stopping p = true) :
    Lawful p { s with queue := s.queue.take n } where
  known := h.known
  once := h.once
  order := .trans (.append (.refl _) ((List.take_sublist _ _).map _)) h.order
  waits := (List.take_sublist _ _).trans h.waits
  own := h.own
  said := h.said
  saidOnce := h.saidOnce
  warned := h.warned
  complete := fun hstop => absurd hyes (Bool.eq_false_iff.mp hstop)

theorem step (h : s.Lawful p) (hs : Step p s s') : s'.Lawful p := by
  cases hs with
  | accept r => exact h.accept r
  | complete o e hlt hnew => exact h.completed hlt hnew
  | notice o e queue c hq hc hfail hnew => exact h.notice hq hc hfail hnew
  | report o e queue c hq hc hsaid => exact h.report hq hc hsaid
  | skip o e queue hq hmay => exact h.skip hq hmay
  | cancel n hstop => exact h.cancel n hstop

theorem empty : (CompletionQueue.empty : CompletionQueue ρ ε κ).Lawful p where
  known := fun _ hx => absurd hx List.not_mem_nil
  once := List.nodup_nil
  order := .refl _
  waits := .refl _
  own := fun _ _ hx => absurd hx List.not_mem_nil
  said := fun _ _ _ hx => absurd hx List.not_mem_nil
  saidOnce := List.nodup_nil
  warned := fun _ _ _ hx => absurd hx List.not_mem_nil
  complete := fun _ => rfl

/-- **The service does what it is for**, in every run. -/
theorem of_reaches (hr : Reaches (next p) (fun _ _ => True) .empty s) : s.Lawful p :=
  hr.invariant .empty fun _ _ _ h _ hn => h.step (next_step hn)

end Lawful

end CompletionQueue
