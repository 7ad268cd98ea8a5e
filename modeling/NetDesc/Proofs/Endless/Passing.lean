import NetDesc.Proofs.Endless.Chains

namespace NetDesc

open Relation (ReflTransGen)

namespace Store

/-- Everything is still there, and what was computed still is. Records have the same members, and
    possibly more. -/
structure Advances (s t : Store) : Prop where
  covers : s.Covers t
  finished : ∀ c < s.cells.size, ∀ v, (s.cell c).progress = .finished v →
    (t.cell c).progress = .finished v

variable {s t u : Store}

theorem Advances.refl (s : Store) : s.Advances s :=
  ⟨.refl s, fun _ _ _ h => h⟩

theorem Advances.trans (hst : s.Advances t) (htu : t.Advances u) : s.Advances u where
  covers := hst.covers.trans htu.covers
  finished c hc v hv :=
    htu.finished c (Nat.lt_of_lt_of_le hc hst.covers.cells) v (hst.finished c hc v hv)

theorem Extends.advances {base : Nat} (h : s.Extends base t) : s.Advances t :=
  ⟨h.covers, h.finished⟩

/-- A cell is still being computed when its computation has ended, so nothing is lost then. -/
theorem Grows.settle_advances {base : Nat} {c : CellId}
    (h : (s.setProgress c .running).Grows base t) (hc : c < s.cells.size) (p : Progress) :
    t.Advances (t.setProgress c p) := by
  refine (t.setProgress_extends 0 c p fun v hv => ?_).advances
  rw [h.running_start hc] at hv
  cases hv

end Store

namespace Program

variable {α : Type} {carryOut : (c : Call) → Store → Outcome c.Reply}
  {inside : Call → Store → Store → Prop} {base : Nat} {s t u : Store}
  {P : Nat → Store → α → Prop} {x : Program α}

/-- A run never undoes a computation. -/
theorem Meets.run_advances (hcalls : Promised carryOut) (hs : s.WellFormed base)
    (hx : x.Meets P base s) (hu : (x.run carryOut s).store? = some u) : s.Advances u := by
  induction x generalizing base s with
  | done a =>
    cases hu
    exact .refl _
  | raise e =>
    cases hu
    exact .refl _
  | access a next ih =>
    exact (hx.1.grows hs).toExtends.advances.trans (ih _ (hx.1.wellFormed hs) hx.2 hu)
  | call c next ih =>
    have hkept := hcalls c s hs.seal hx.1
    rw [Program.run] at hu
    cases hreply : carryOut c s with
    | value reply t =>
      rw [hreply] at hkept hu
      obtain ⟨hwf, hgrows, hanswer⟩ := hkept
      exact hgrows.toExtends.advances.trans (ih reply hwf (hx.2 t reply hwf hgrows hanswer) hu)
    | error e t =>
      rw [hreply] at hkept hu
      cases hu
      exact hkept.2.toExtends.advances
    | exhausted =>
      rw [hreply] at hu
      cases hu

/-- From a store that it passes, too. -/
theorem Meets.passes_advances (hcalls : Promised carryOut)
    (hinside : ∀ (c : Call) (s t u : Store), s.WellFormed s.records.size → c.Valid s →
      inside c s t → (carryOut c s).store? = some u → t.Advances u)
    (hs : s.WellFormed base) (hx : x.Meets P base s) (ht : x.Passes carryOut inside s t)
    (hu : (x.run carryOut s).store? = some u) : t.Advances u := by
  induction ht generalizing base with
  | start x s => exact hx.run_advances hcalls hs hu
  | access _ ih => exact ih (hx.1.wellFormed hs) hx.2 hu
  | @inside c next s t h =>
    have hcall := hinside c s t
    have hkept := hcalls c s hs.seal hx.1
    rw [Program.run] at hu
    cases hreply : carryOut c s with
    | value reply w =>
      rw [hreply] at hkept hu
      obtain ⟨hwf, hgrows, hanswer⟩ := hkept
      have htw := hcall w hs.seal hx.1 h (by rw [hreply]; rfl)
      exact htw.trans ((hx.2 w reply hwf hgrows hanswer).run_advances hcalls hwf hu)
    | error e w =>
      rw [hreply] at hu
      cases hu
      exact hcall u hs.seal hx.1 h (by rw [hreply]; rfl)
    | exhausted =>
      rw [hreply] at hu
      cases hu
  | @reply c next s t w reply hreply _ ih =>
    have hkept := hcalls c s hs.seal hx.1
    rw [hreply] at hkept
    obtain ⟨hwf, hgrows, hanswer⟩ := hkept
    rw [Program.run, hreply] at hu
    exact ih hwf (hx.2 w reply hwf hgrows hanswer) hu

/-- With more fuel a run passes the same stores, and possibly more. -/
theorem Passes.mono {carryOut' : (c : Call) → Store → Outcome c.Reply}
    {inside' : Call → Store → Store → Prop}
    (hanswer : ∀ (c : Call) (s t : Store) (reply : c.Reply), carryOut c s = .value reply t →
      carryOut' c s = .value reply t)
    (hinside : ∀ c s t, inside c s t → inside' c s t) (h : x.Passes carryOut inside s t) :
    x.Passes carryOut' inside' s t := by
  induction h with
  | start x s => exact .start x s
  | access _ ih => exact .access ih
  | inside h => exact .inside (hinside _ _ _ h)
  | reply hreply _ ih => exact .reply (hanswer _ _ _ _ hreply) ih

/-- What is passed inside a call that a run comes to is passed by the run. -/
theorem Reaches.passes {c : Call} {next : c.Reply → Program α}
    (h : Reaches carryOut x s (.call c next) u) (ht : inside c u t) :
    x.Passes carryOut inside s t := by
  generalize hy : Program.call c next = y at h
  induction h with
  | start x s =>
    subst hy
    exact .inside ht
  | access _ ih => exact .access (ih ht hy)
  | reply hreply _ ih => exact .reply hreply (ih ht hy)

end Program

namespace Evaluator

variable {ev : Evaluator} {n m depth : Nat} {c : Call} {s t u : Store}

theorem passes_start (ev : Evaluator) (n depth : Nat) (c : Call) (s : Store) :
    ev.Passes n depth c s s := by
  cases n with
  | zero => rfl
  | succ n =>
    cases c with
    | perform task =>
      cases task with
      | evaluate e scope path => exact .inl rfl
      | element f index path location => exact .start _ s
      | constant v => rfl
    | force cell => exact .inl rfl
    | render spec v => exact .start _ s
    | tie work visited => exact .start _ s

/-- With more fuel a call passes the same stores, and possibly more. -/
theorem passes_mono (hnm : n ≤ m) (h : ev.Passes n depth c s t) : ev.Passes m depth c s t := by
  induction n generalizing m depth c s t with
  | zero =>
    cases h
    exact passes_start ev m depth c _
  | succ n ih =>
    obtain ⟨m, rfl⟩ := Nat.exists_eq_add_of_le' (Nat.lt_of_lt_of_le (Nat.succ_pos n) hnm)
    replace hnm := Nat.le_of_succ_le_succ hnm
    have hprogram {α : Type} {x : Program α} {s t : Store} (depth : Nat)
        (h : x.Passes (ev.carryOut n depth) (ev.Passes n depth) s t) :
        x.Passes (ev.carryOut m depth) (ev.Passes m depth) s t :=
      h.mono (fun _ _ _ _ => (ev.carryOut_monotone depth).answered hnm) fun _ _ _ => ih hnm
    cases c with
    | perform task =>
      cases task with
      | evaluate e scope path => exact Or.imp_right (And.imp_right (hprogram (depth + 1))) h
      | element f index path location => exact hprogram depth h
      | constant v => exact h
    | force cell =>
      refine Or.imp_right (And.imp_right (Or.imp (ih hnm) fun ht => ?_)) h
      have hle : ev.carryOut (n + 1) depth (.force cell) s ≤
          ev.carryOut (m + 1) depth (.force cell) s :=
        ev.carryOut_monotone depth _ _ (Nat.succ_le_succ hnm) _ _
      rcases hle with hle | hle
      · rw [hle] at ht
        cases ht
      · rwa [← hle]
    | render spec v => exact hprogram depth h
    | tie work visited => exact hprogram depth h

/-- What a call passes, a call passes that it is carried out for. -/
theorem Involves.passes {d d' : Demand} (h : ev.Involves d d')
    (ht : ∃ n, ev.Passes n d'.depth d'.call d'.store t) :
    ∃ n, ev.Passes n d.depth d.call d.store t := by
  obtain ⟨depth, c, s⟩ := d
  obtain ⟨depth', c', s'⟩ := d'
  obtain ⟨k, h⟩ := h
  obtain ⟨n, ht⟩ := ht
  have hreaches {α : Type} {x : Program α} {next : c'.Reply → Program α}
      (h : Program.Reaches (ev.carryOut k depth') x s (.call c' next) s') :
      x.Passes (ev.carryOut (k + n) depth') (ev.Passes (k + n) depth') s t :=
    ((ev.carryOut_monotone depth').reaches (Nat.le_add_right k n) h).passes
      (passes_mono (Nat.le_add_left n k) ht)
  cases h with
  | evaluate hdepth h => exact ⟨k + n + 1, .inr ⟨hdepth, hreaches h⟩⟩
  | element h => exact ⟨k + n + 1, hreaches h⟩
  | force hpending => exact ⟨n + 1, .inr ⟨hpending, .inl ht⟩⟩
  | render h => exact ⟨k + n + 1, hreaches h⟩
  | tie h => exact ⟨k + n + 1, hreaches h⟩

/-- The store that a call is made with is passed by a run that takes the call. -/
theorem Takes.passes {α : Type} {x : Program α} {d : Demand} (h : ev.Takes x s d) :
    ∃ fuel, x.Passes (ev.carryOut fuel 0) (ev.Passes fuel 0) s d.store := by
  obtain ⟨k, c, next, u, hreach, htakes⟩ := h
  have hpasses : ∃ n, ev.Passes n 0 c u d.store := by
    generalize hfirst : (⟨0, c, u⟩ : Demand) = first at htakes
    suffices h : ∃ n, ev.Passes n first.depth first.call first.store d.store by
      rwa [← hfirst] at h
    clear hfirst
    induction htakes using ReflTransGen.head_induction_on with
    | refl => exact ⟨0, rfl⟩
    | head h _ ih => exact h.passes ih
  obtain ⟨n, hpasses⟩ := hpasses
  refine ⟨k + n, ?_⟩
  exact ((ev.carryOut_monotone 0).reaches (Nat.le_add_right k n) hreach).passes
    (passes_mono (Nat.le_add_left n k) hpasses)

/-- What was computed in a store that is passed inside a call still is when the call has ended. -/
theorem passes_advances (hr : ev.registry.Sound) (n depth : Nat) (c : Call) (s t u : Store)
    (hs : s.WellFormed s.records.size) (hc : c.Valid s) (ht : ev.Passes n depth c s t)
    (hu : (ev.carryOut n depth c s).store? = some u) : t.Advances u := by
  have hstart := ((carryOut_promised hr n depth c s hs hc).of_store? hu).2.toExtends.advances
  induction n generalizing depth c s t u with
  | zero =>
    cases ht
    exact hstart
  | succ n ih =>
    replace ih (depth : Nat) (c : Call) (s t u : Store) (hs : s.WellFormed s.records.size)
        (hc : c.Valid s) (ht : ev.Passes n depth c s t)
        (hu : (ev.carryOut n depth c s).store? = some u) : t.Advances u :=
      ih depth c s t u hs hc ht hu
        ((carryOut_promised hr n depth c s hs hc).of_store? hu).2.toExtends.advances
    have hprogram {α : Type} {x : Program α} {P : Nat → Store → α → Prop} (depth : Nat)
        (hx : x.Ensures s.records.size s P)
        (ht : x.Passes (ev.carryOut n depth) (ev.Passes n depth) s t)
        (hu : (x.run (ev.carryOut n depth) s).store? = some u) : t.Advances u :=
      (hx hs).passes_advances (carryOut_promised hr n depth) (ih depth) hs ht hu
    cases c with
    | perform task =>
      have htask : task.Valid s := hc
      cases task with
      | evaluate e scope path =>
        rcases ht with rfl | ⟨hdepth, ht⟩
        · exact hstart
        · rw [carryOut_evaluate ev n s hdepth] at hu
          exact hprogram _ (taskProgram_givesValue hr htask) ht
            ((Outcome.store?_through _ _).symm.trans hu)
      | element f index path location =>
        rw [carryOut_element] at hu
        exact hprogram _ (taskProgram_givesValue hr htask) ht
          ((Outcome.store?_through _ _).symm.trans hu)
      | constant v =>
        cases ht
        exact hstart
    | force cell =>
      rcases ht with rfl | ⟨hpending, ht | ht⟩
      · exact hstart
      · rw [carryOut_force_pending ev n depth hpending] at hu
        have hwf := hs.start hpending
        have htask := hs.task_valid hc
        have hkept := carryOut_promised hr n depth (.perform (s.cell cell).task) _ hwf htask
        obtain ⟨w, p, hw, rfl⟩ := settle_store? hu
        have hinside := ih depth (.perform (s.cell cell).task) _ t w hwf htask ht hw
        exact hinside.trans ((hkept.of_store? hw).2.settle_advances hc p)
      · cases ht.symm.trans hu
        exact .refl t
    | render spec v => exact hprogram depth (Render.value_ensures spec hc) ht hu
    | tie work visited => exact hprogram depth (Network.tieStep_ensures hc) ht hu

end Evaluator

end NetDesc
