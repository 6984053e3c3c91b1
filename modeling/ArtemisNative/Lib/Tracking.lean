/-
ArtemisNative/Lib/Tracking.lean

Tokens that leave their traces in one log.

Tokens are kept at places, no token twice (`Custody`), each in some phase, and
a transition may append observations to a log.  An observation is about at most
one token, its `key`.  `Tracks` says that the part of the log about a token is
explained by the phase the token is in (`Logged`) or, once the token is kept
nowhere, by how it ended (`Settled`).

A transition changes one place or two, and speaks only about the tokens there:

* `change`   — the tokens of one place go to other phases, or end;
* `advance`, `finish` — only the first token of the place does;
* `rearrange` — the tokens of one place are reordered;
* `exchange` — tokens move between two places;
* `gain`     — a new token appears, about which the log says nothing.

The relations `Logged` and `Settled` may grow with the transition, since what
they say may rest on histories that grow.
-/
import ArtemisNative.Lib.Custody

variable {ι κ Φ Ob : Type*} [DecidableEq ι] [DecidableEq κ]
variable {key : Ob → Option κ} {O : Finset κ} {H : ι → List (κ × Φ)} {log obs : List Ob}
variable {Logged Logged' : κ → Φ → List Ob → Prop} {Settled Settled' : κ → List Ob → Prop}
variable {p q : ι} {k : κ} {φ φ' : Φ} {l m rest : List (κ × Φ)}

/-- The observations of a log that are about token `k`. -/
def about (key : Ob → Option κ) (k : κ) (log : List Ob) : List Ob :=
  log.filter fun ob => key ob = some k

@[simp] theorem about_nil (key : Ob → Option κ) (k : κ) : about key k [] = [] := rfl

@[simp] theorem about_append (key : Ob → Option κ) (k : κ) (log obs : List Ob) :
    about key k (log ++ obs) = about key k log ++ about key k obs :=
  List.filter_append ..

theorem about_eq_nil (h : ∀ ob ∈ obs, key ob ≠ some k) : about key k obs = [] :=
  List.filter_eq_nil_iff.mpr fun ob hob => by simpa using h ob hob

theorem about_eq_self (h : ∀ ob ∈ obs, key ob = some k) : about key k obs = obs :=
  List.filter_eq_self.mpr fun ob hob => by simpa using h ob hob

/-- One observation about each of several tokens. -/
theorem about_map {f : κ → Ob} {ks : List κ} (hf : ∀ k, key (f k) = some k) (hnd : ks.Nodup)
    (hk : k ∈ ks) : about key k (ks.map f) = [f k] := by
  induction ks with
  | nil => cases hk
  | cons k' ks ih =>
    obtain ⟨hnot, hnd⟩ := List.nodup_cons.mp hnd
    have hsplit : (k' :: ks).map f = [f k'] ++ ks.map f := rfl
    rw [hsplit, about_append]
    rcases List.mem_cons.mp hk with rfl | hk
    · rw [about_eq_self (by simp [hf]), about_eq_nil ?_, List.append_nil]
      intro ob hob he
      obtain ⟨k'', hk'', rfl⟩ := List.mem_map.mp hob
      obtain rfl := Option.some.inj ((hf k'').symm.trans he)
      exact hnot hk''
    · rw [ih hnd hk, about_eq_nil ?_, List.nil_append]
      intro ob hob he
      obtain rfl := List.mem_singleton.mp hob
      obtain rfl := Option.some.inj ((hf k').symm.trans he)
      exact hnot hk

theorem about_map_of_notMem {f : κ → Ob} {ks : List κ} (hf : ∀ k, key (f k) = some k)
    (hk : k ∉ ks) : about key k (ks.map f) = [] := by
  refine about_eq_nil fun ob hob he => ?_
  obtain ⟨k', hk', rfl⟩ := List.mem_map.mp hob
  obtain rfl := Option.some.inj ((hf k').symm.trans he)
  exact hk hk'

omit [DecidableEq ι] in
/-- The log agrees with where the tokens are. -/
structure Tracks (key : Ob → Option κ) (O : Finset κ) (H : ι → List (κ × Φ)) (log : List Ob)
    (Logged : κ → Φ → List Ob → Prop) (Settled : κ → List Ob → Prop) : Prop where
  custody : Custody O fun p => (H p).map Prod.fst
  logged : ∀ p k φ, (k, φ) ∈ H p → Logged k φ (about key k log)
  settled : ∀ k ∈ O, (∀ p, k ∉ (H p).map Prod.fst) → Settled k (about key k log)
  fresh : ∀ k, k ∉ O → about key k log = []

namespace Tracks

omit [DecidableEq κ] in
theorem map_update (H : ι → List (κ × Φ)) (p : ι) (l : List (κ × Φ)) :
    (fun q => (Function.update H p l q).map Prod.fst)
      = Function.update (fun q => (H q).map Prod.fst) p (l.map Prod.fst) := by
  funext q
  by_cases hq : q = p
  · subst hq
    simp
  · simp [hq]

omit [DecidableEq ι] in
/-- The observations of a step speak about no token at another place. -/
theorem about_elsewhere (h : Tracks key O H log Logged Settled)
    (hobs : ∀ ob ∈ obs, ∀ k, key ob = some k → k ∈ (H p).map Prod.fst)
    (hq : k ∈ (H q).map Prod.fst) (hne : q ≠ p) : about key k obs = [] :=
  about_eq_nil fun ob hob hk => hne (h.custody.place_unique hq (hobs ob hob k hk))

/-- The tokens of one place go to other phases, or end. -/
theorem change (h : Tracks key O H log Logged Settled)
    (hkeys : (l.map Prod.fst).Subperm ((H p).map Prod.fst))
    (hobs : ∀ ob ∈ obs, ∀ k, key ob = some k → k ∈ (H p).map Prod.fst)
    (hstay : ∀ k φ', (k, φ') ∈ l → ∃ φ, (k, φ) ∈ H p ∧
      ∀ L, Logged k φ L → Logged' k φ' (L ++ about key k obs))
    (hgone : ∀ k φ, (k, φ) ∈ H p → k ∉ l.map Prod.fst →
      ∀ L, Logged k φ L → Settled' k (L ++ about key k obs))
    (hlog : ∀ k φ L, Logged k φ L → Logged' k φ L)
    (hset : ∀ k L, Settled k L → Settled' k L) :
    Tracks key O (Function.update H p l) (log ++ obs) Logged' Settled' where
  custody := by
    obtain ⟨l₀, hperm, hsub⟩ := hkeys
    have hcus := (h.custody.shrink (p := p) hsub).rearrange (p := p) (l := l.map Prod.fst)
      (by simpa using hperm.symm)
    rwa [Function.update_idem, ← map_update] at hcus
  logged := by
    intro q k φ hk
    rw [about_append]
    by_cases hq : q = p
    · subst hq
      rw [Function.update_self] at hk
      obtain ⟨φ₀, hk₀, hstep⟩ := hstay k φ hk
      exact hstep _ (h.logged q k φ₀ hk₀)
    · rw [Function.update_of_ne hq] at hk
      rw [h.about_elsewhere hobs (List.mem_map_of_mem hk) hq, List.append_nil]
      exact hlog k φ _ (h.logged q k φ hk)
  settled := by
    intro k hO hno
    rw [about_append]
    have hl : k ∉ l.map Prod.fst := by simpa using hno p
    by_cases hkp : k ∈ (H p).map Prod.fst
    · obtain ⟨⟨k, φ⟩, hk, rfl⟩ := List.mem_map.mp hkp
      exact hgone k φ hk hl _ (h.logged p k φ hk)
    · rw [about_eq_nil fun ob hob hk => hkp (hobs ob hob k hk), List.append_nil]
      refine hset k _ (h.settled k hO fun q => ?_)
      by_cases hq : q = p
      · subst hq
        exact hkp
      · simpa [Function.update_of_ne hq] using hno q
  fresh := by
    intro k hk
    have hnot : k ∉ (H p).map Prod.fst := fun hkp => hk (h.custody.subset p k hkp)
    rw [about_append, h.fresh k hk, about_eq_nil fun ob hob hk => hnot (hobs ob hob k hk)]
    rfl

/-- The tokens of one place are reordered. -/
theorem rearrange (h : Tracks key O H log Logged Settled) (hl : l.Perm (H p)) :
    Tracks key O (Function.update H p l) log Logged Settled := by
  have hch : Tracks key O (Function.update H p l) (log ++ []) Logged Settled :=
    h.change (hl.map Prod.fst).subperm (by simp)
      (fun k φ hk => ⟨φ, hl.mem_iff.mp hk, fun L hL => by simpa using hL⟩)
      (fun k φ hk hno => absurd (List.mem_map_of_mem (hl.mem_iff.mpr hk)) hno)
      (fun k φ L hL => hL) fun k L hL => hL
  simpa using hch

omit [DecidableEq ι] in
/-- A step that speaks about the first token only says nothing about the rest. -/
theorem about_rest (h : Tracks key O H log Logged Settled) (hp : H p = (k, φ) :: rest)
    (hobs : ∀ ob ∈ obs, key ob = none ∨ key ob = some k) {k' : κ}
    (hk' : k' ∈ rest.map Prod.fst) : about key k' obs = [] := by
  have hnd := h.custody.nodup p
  rw [hp] at hnd
  refine about_eq_nil fun ob hob he => (List.nodup_cons.mp hnd).1 ?_
  rcases hobs ob hob with hn | hk
  · rw [hn] at he
    cases he
  · obtain rfl := Option.some.inj (hk.symm.trans he)
    exact hk'

/-- The first token of a place goes to another phase. -/
theorem advance (h : Tracks key O H log Logged Settled) (hp : H p = (k, φ) :: rest)
    (hobs : ∀ ob ∈ obs, key ob = none ∨ key ob = some k)
    (hstep : ∀ L, Logged k φ L → Logged' k φ' (L ++ about key k obs))
    (hlog : ∀ k φ L, Logged k φ L → Logged' k φ L)
    (hset : ∀ k L, Settled k L → Settled' k L) :
    Tracks key O (Function.update H p ((k, φ') :: rest)) (log ++ obs) Logged' Settled' := by
  refine h.change (List.Sublist.subperm (by simp [hp])) ?_ ?_ ?_ hlog hset
  · intro ob hob k' hk'
    rcases hobs ob hob with hn | hk
    · rw [hn] at hk'
      cases hk'
    · obtain rfl := Option.some.inj (hk.symm.trans hk')
      simp [hp]
  · intro k' φ'' hk'
    rcases List.mem_cons.mp hk' with he | hk'
    · obtain ⟨rfl, rfl⟩ := Prod.mk.inj he
      exact ⟨φ, hp ▸ List.mem_cons_self, hstep⟩
    · refine ⟨φ'', hp ▸ List.mem_cons_of_mem _ hk', fun L hL => ?_⟩
      rw [h.about_rest hp hobs (List.mem_map_of_mem hk'), List.append_nil]
      exact hlog _ _ _ hL
  · intro k' φ'' hk' hno
    refine absurd ?_ hno
    have := List.mem_map_of_mem (f := Prod.fst) hk'
    simpa [hp] using this

/-- The first token of a place ends. -/
theorem finish (h : Tracks key O H log Logged Settled) (hp : H p = (k, φ) :: rest)
    (hobs : ∀ ob ∈ obs, key ob = none ∨ key ob = some k)
    (hend : ∀ L, Logged k φ L → Settled' k (L ++ about key k obs))
    (hlog : ∀ k φ L, Logged k φ L → Logged' k φ L)
    (hset : ∀ k L, Settled k L → Settled' k L) :
    Tracks key O (Function.update H p rest) (log ++ obs) Logged' Settled' := by
  refine h.change (List.Sublist.subperm (by simp [hp])) ?_ ?_ ?_ hlog hset
  · intro ob hob k' hk'
    rcases hobs ob hob with hn | hk
    · rw [hn] at hk'
      cases hk'
    · obtain rfl := Option.some.inj (hk.symm.trans hk')
      simp [hp]
  · intro k' φ' hk'
    refine ⟨φ', hp ▸ List.mem_cons_of_mem _ hk', fun L hL => ?_⟩
    rw [h.about_rest hp hobs (List.mem_map_of_mem hk'), List.append_nil]
    exact hlog _ _ _ hL
  · intro k' φ' hk' hno
    rw [hp] at hk'
    rcases List.mem_cons.mp hk' with he | hk'
    · obtain ⟨rfl, rfl⟩ := Prod.mk.inj he
      exact hend
    · exact absurd (List.mem_map_of_mem hk') hno

/-- Tokens move between two places. -/
theorem exchange (h : Tracks key O H log Logged Settled) (hpq : p ≠ q)
    (hkeys : (l.map Prod.fst ++ m.map Prod.fst).Perm ((H p).map Prod.fst ++ (H q).map Prod.fst))
    (hobs : ∀ ob ∈ obs, ∀ k, key ob = some k → k ∈ (H p).map Prod.fst ++ (H q).map Prod.fst)
    (hstay : ∀ k φ', (k, φ') ∈ l ++ m → ∃ φ, (k, φ) ∈ H p ++ H q ∧
      ∀ L, Logged k φ L → Logged' k φ' (L ++ about key k obs))
    (hlog : ∀ k φ L, Logged k φ L → Logged' k φ L)
    (hset : ∀ k L, Settled k L → Settled' k L) :
    Tracks key O (Function.update (Function.update H p l) q m) (log ++ obs) Logged' Settled' := by
  -- what is at the two places afterwards, and what is elsewhere
  have hplace : ∀ r, (r = p ∧ Function.update (Function.update H p l) q m r = l) ∨
      (r = q ∧ Function.update (Function.update H p l) q m r = m) ∨
      (r ≠ p ∧ r ≠ q ∧ Function.update (Function.update H p l) q m r = H r) := by
    intro r
    by_cases hrq : r = q
    · subst hrq
      exact .inr (.inl ⟨rfl, Function.update_self ..⟩)
    · by_cases hrp : r = p
      · subst hrp
        refine .inl ⟨rfl, ?_⟩
        rw [Function.update_of_ne hrq, Function.update_self]
      · refine .inr (.inr ⟨hrp, hrq, ?_⟩)
        rw [Function.update_of_ne hrq, Function.update_of_ne hrp]
  have hbefore : ∀ k φ, (k, φ) ∈ H p ++ H q → Logged k φ (about key k log) := by
    intro k φ hk
    rcases List.mem_append.mp hk with hk | hk
    · exact h.logged p k φ hk
    · exact h.logged q k φ hk
  have hafter : ∀ k φ', (k, φ') ∈ l ++ m → Logged' k φ' (about key k (log ++ obs)) := by
    intro k φ' hk
    obtain ⟨φ, hφ, hstep⟩ := hstay k φ' hk
    rw [about_append]
    exact hstep _ (hbefore k φ hφ)
  have helse : ∀ r, r ≠ p → r ≠ q → ∀ k, k ∈ (H r).map Prod.fst → about key k obs = [] := by
    intro r hrp hrq k hk
    refine about_eq_nil fun ob hob he => ?_
    rcases List.mem_append.mp (hobs ob hob k he) with hk' | hk'
    · exact hrp (h.custody.place_unique hk hk')
    · exact hrq (h.custody.place_unique hk hk')
  constructor
  · rw [map_update, map_update]
    exact h.custody.transfer hpq hkeys
  · intro r k φ hk
    rcases hplace r with ⟨-, he⟩ | ⟨-, he⟩ | ⟨hrp, hrq, he⟩ <;> rw [he] at hk
    · exact hafter k φ (List.mem_append_left _ hk)
    · exact hafter k φ (List.mem_append_right _ hk)
    · rw [about_append, helse r hrp hrq k (List.mem_map_of_mem hk), List.append_nil]
      exact hlog _ _ _ (h.logged r k φ hk)
  · intro k hO hno
    have hlm : k ∉ l.map Prod.fst ++ m.map Prod.fst := by
      intro hk
      rcases List.mem_append.mp hk with hk | hk
      · have hp := hno p
        rw [Function.update_of_ne hpq, Function.update_self] at hp
        exact hp hk
      · have hq := hno q
        rw [Function.update_self] at hq
        exact hq hk
    have hpq' : k ∉ (H p).map Prod.fst ++ (H q).map Prod.fst := fun hk =>
      hlm (hkeys.mem_iff.mpr hk)
    rw [about_append, about_eq_nil fun ob hob he => hpq' (hobs ob hob k he), List.append_nil]
    refine hset k _ (h.settled k hO fun r hk => ?_)
    rcases hplace r with ⟨rfl, -⟩ | ⟨rfl, -⟩ | ⟨-, -, he⟩
    · exact hpq' (List.mem_append_left _ hk)
    · exact hpq' (List.mem_append_right _ hk)
    · exact hno r (he ▸ hk)
  · intro k hk
    have hpq' : k ∉ (H p).map Prod.fst ++ (H q).map Prod.fst := by
      intro hkpq
      rcases List.mem_append.mp hkpq with hk' | hk'
      · exact hk (h.custody.subset p k hk')
      · exact hk (h.custody.subset q k hk')
    rw [about_append, h.fresh k hk, about_eq_nil fun ob hob he => hpq' (hobs ob hob k he)]
    rfl

/-- A new token appears. -/
theorem gain (h : Tracks key O H log Logged Settled) (hk : k ∉ O)
    (hl : l.Perm ((k, φ) :: H p)) (hnew : Logged' k φ [])
    (hlog : ∀ k φ L, Logged k φ L → Logged' k φ L)
    (hset : ∀ k L, Settled k L → Settled' k L) :
    Tracks key (insert k O) (Function.update H p l) log Logged' Settled' where
  custody := by
    rw [map_update]
    exact h.custody.gain hk (hl.map Prod.fst)
  logged := by
    intro q k' φ' hk'
    have hold : (k', φ') ∈ H q → Logged' k' φ' (about key k' log) := fun hk' =>
      hlog _ _ _ (h.logged q k' φ' hk')
    by_cases hq : q = p
    · subst hq
      rw [Function.update_self] at hk'
      rcases List.mem_cons.mp (hl.mem_iff.mp hk') with he | hk'
      · obtain ⟨rfl, rfl⟩ := Prod.mk.inj he
        rw [h.fresh _ hk]
        exact hnew
      · exact hold hk'
    · rw [Function.update_of_ne hq] at hk'
      exact hold hk'
  settled := by
    intro k' hO hno
    rcases Finset.mem_insert.mp hO with rfl | hO
    · refine absurd ?_ (hno p)
      rw [Function.update_self]
      exact List.mem_map.mpr ⟨(k', φ), hl.mem_iff.mpr List.mem_cons_self, rfl⟩
    · refine hset k' _ (h.settled k' hO fun q hk' => ?_)
      have hq := hno q
      by_cases hqp : q = p
      · subst hqp
        rw [Function.update_self] at hq
        obtain ⟨x, hx, rfl⟩ := List.mem_map.mp hk'
        exact hq (List.mem_map_of_mem (hl.mem_iff.mpr (List.mem_cons_of_mem _ hx)))
      · rw [Function.update_of_ne hqp] at hq
        exact hq hk'
  fresh := fun k' hk' => h.fresh k' fun hO => hk' (Finset.mem_insert_of_mem hO)

omit [DecidableEq ι] in
/-- No token moves, and none is spoken about. -/
theorem idle (h : Tracks key O H log Logged Settled) (hobs : ∀ ob ∈ obs, key ob = none)
    (hlog : ∀ k φ L, Logged k φ L → Logged' k φ L)
    (hset : ∀ k L, Settled k L → Settled' k L) :
    Tracks key O H (log ++ obs) Logged' Settled' := by
  have hnone : ∀ k, about key k (log ++ obs) = about key k log := by
    intro k
    have hnil : about key k obs = [] := by
      refine about_eq_nil fun ob hob he => ?_
      rw [hobs ob hob] at he
      cases he
    rw [about_append, hnil, List.append_nil]
  refine ⟨h.custody, ?_, ?_, ?_⟩
  · intro p k φ hk
    rw [hnone]
    exact hlog _ _ _ (h.logged p k φ hk)
  · intro k hO hno
    rw [hnone]
    exact hset _ _ (h.settled k hO hno)
  · intro k hk
    rw [hnone]
    exact h.fresh k hk

end Tracks
