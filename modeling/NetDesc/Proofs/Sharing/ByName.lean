import NetDesc.Proofs.Lockstep.Evaluator
import NetDesc.Proofs.Lockstep.Run

namespace NetDesc

open Outcome (Eventually)

/-- Only cells that are not old correspond to any. -/
def Pairing.From (old : Nat) (p : Pairing) : Prop :=
  ∀ c d, p.cell c d → old ≤ c

/-- With enough fuel the runs end with a value like `v`. -/
def EndsAlike (old : Nat) (later : Store) (W : Pairing) (v : Value) (f : Nat → Outcome Value) :
    Prop :=
  ∃ (W' : Pairing) (t : Store) (w : Value), W ≤ W' ∧ W'.From old ∧ later.Alike W' t ∧
    v.Alike W' w ∧ Eventually f (.value w t)

/-- One more step that passes values on. -/
theorem EndsAlike.step {old : Nat} {later : Store} {W : Pairing} {v : Value}
    {f g : Nat → Outcome Value} (h : EndsAlike old later W v f)
    (hfg : ∀ n w t, f n = .value w t → g (n + 1) = .value w t) : EndsAlike old later W v g := by
  obtain ⟨W', t, w, hle, hfrom, hW', hvw, n, hn⟩ := h
  refine ⟨W', t, w, hle, hfrom, hW', hvw, n + 1, fun m hm => ?_⟩
  obtain ⟨m, rfl⟩ := Nat.exists_eq_add_of_le' (Nat.lt_of_lt_of_le (Nat.succ_pos n) hm)
  exact hfg m w t (hn m (Nat.le_of_succ_le_succ hm))

namespace Evaluator

variable (ev : Evaluator) (old : Nat)

/-- Computing a cell by name gives a value like `v`. -/
def Recomputes (later : Store) (z : CellId) (v : Value) : Prop :=
  ∀ (W : Pairing) (t : Store) (a : CellId), later.Alike W t → W.From old → W.cell z a →
    EndsAlike old later W v fun n => ev.carryOutFreely .byName n (.force a) t

/-- What finished cells hold is what computing them by name gives, at any later time and however
    the stores have grown since. Cells from before the evaluation are never met; `old` says how
    many there are. -/
def Faithful (base : Nat) (s : Store) : Prop :=
  ∀ (z : CellId) (v : Value), old ≤ z → z < s.cells.size →
    (s.cell z).progress = .finished v → ∀ later, s.Extends base later → ev.Recomputes old later z v

/-- A way to carry out calls that keeps finished cells faithful, and gives what evaluation by name
    gives. -/
structure RefinesByName (carryOut : (c : Call) → Store → Outcome c.Reply) : Prop where
  promised : Program.Promised carryOut
  keeps : ∀ {c : Call} {s t : Store}, s.WellFormed s.records.size → c.Valid s →
    ev.Faithful old s.records.size s → (carryOut c s).store? = some t →
      ev.Faithful old t.records.size t
  value : ∀ {k : Task} {s u : Store} {v : Value}, s.WellFormed s.records.size → k.Valid s →
    ev.Faithful old s.records.size s → old ≤ s.cells.size →
    carryOut (.perform k) s = .value v u → ∀ {later t : Store} {W : Pairing} {l : Task},
      u.Extends u.records.size later → later.Alike W t → W.From old → k.Alike W l →
        EndsAlike old later W v fun n => ev.carryOutFreely .byName n (.perform l) t

variable {ev old}

namespace Faithful

variable {base : Nat} {s : Store}

/-- What held before a computation holds after it, for cells that were finished by then. -/
theorem later {bound : Nat} {t : Store} (h : ev.Faithful old base s) (hst : s.Extends base t)
    (hbase : base ≤ bound) {z : CellId} {v : Value} (hold : old ≤ z) (hz : z < s.cells.size)
    (hv : (s.cell z).progress = .finished v) (later : Store) (hlater : t.Extends bound later) :
    ev.Recomputes old later z v :=
  h z v hold hz hv later (hst.trans hlater hbase)

theorem weaken {bound : Nat} (h : ev.Faithful old base s) (hbase : base ≤ bound) :
    ev.Faithful old bound s :=
  fun z v hold hz hv later hlater => h z v hold hz hv later (hlater.weaken hbase)

/-- A cell that holds its value from the start is computed at once. -/
theorem constant {later : Store} {z : CellId} {v : Value}
    (hz : (later.cell z).task = .constant v) : ev.Recomputes old later z v := by
  intro W t a hW hfrom hza
  obtain ⟨-, -, htask, -, -⟩ := hW.cell hza
  rw [hz] at htask
  generalize hl : (t.cell a).task = l at htask
  cases htask with
  | @constant _ w hvw =>
    refine ⟨W, t, w, W.le_refl, hfrom, hW, hvw, 2, fun n hn => ?_⟩
    obtain ⟨n, rfl⟩ := Nat.exists_eq_add_of_le' hn
    exact (ev.carryOutFreely_byName_force (n + 1) t a).trans (by rw [hl]; rfl)

/-- New cells hold nothing that was not known from the start. -/
theorem access {a : Access} (hs : s.WellFormed base) (ha : a.Allowed base s)
    (h : ev.Faithful old base s) : ev.Faithful old base (a.perform s).2 := by
  have hext := (ha.grows hs).toExtends
  have hsame (heq : (a.perform s).2.cells = s.cells) : ev.Faithful old base (a.perform s).2 := by
    intro z v hold hz hv later hlater
    simp only [Store.cell, heq] at hz hv
    exact h.later hext (Nat.le_refl base) hold hz hv later hlater
  cases a with
  | newCell c =>
    intro z v hold hz hv later hlater
    by_cases hnew : z = s.cells.size
    · have hcell : ((Access.newCell c).perform s).2.cell z = c := by simp [Access.perform, hnew]
      rw [hcell] at hv
      rcases ha.2 with hpending | ⟨w, htask, hw⟩
      · rw [hpending] at hv
        cases hv
      · rw [hw] at hv
        cases hv
        refine constant ?_
        rw [hlater.task z hz, hcell, htask]
    · have hcell : ((Access.newCell c).perform s).2.cell z = s.cell z := by
        simp [Access.perform, hnew]
      rw [hcell] at hv
      simp only [Access.perform, Array.size_push] at hz
      have hin : z < s.cells.size := Nat.lt_of_le_of_ne (Nat.le_of_lt_succ hz) hnew
      exact h.later hext (Nat.le_refl base) hold hin hv later hlater
  | rename o name => cases o <;> exact hsame rfl
  | _ => exact hsame rfl

end Faithful

namespace RefinesByName

variable {carryOut : (c : Call) → Store → Outcome c.Reply} (h : ev.RefinesByName old carryOut)

include h

theorem invariant : Program.Invariant carryOut (fun _ _ => True) (ev.Faithful old) where
  sealed hs hJ := hJ.weaken hs.base_le
  access := Faithful.access
  call hs hc _ := h.keeps hs hc

/-- Calls are answered as by name. -/
theorem coupling (later : Store) :
    Coupling carryOut (ev.carryOutFreely .byName) later later (fun _ => True)
      (fun _ s => True ∧ ev.Faithful old s.records.size s)
      (fun s W _ => old ≤ s.cells.size ∧ W.From old) where
  promised := h.promised
  monotone := ev.carryOutFreely_monotone .byName
  same := by
    rintro s s' t t' p p' hs - - hp ⟨hold, hfrom⟩
    refine ⟨by rwa [hs], fun c d hcd => hfrom c d ?_⟩
    rwa [← hp]
  newCell := by
    rintro s t p c d - - - ⟨hold, hfrom⟩
    refine ⟨by simpa using Nat.le_succ_of_le hold, ?_⟩
    rintro x y (hxy | ⟨rfl, rfl⟩)
    · exact hfrom x y hxy
    · exact hold
  answers := by
    rintro c s u reply hs hc ⟨-, hfaithful⟩ hreply hu - W t d hW hcd ⟨hold, hfrom⟩
    have hkept := h.promised c s hs hc
    rw [hreply] at hkept
    obtain ⟨-, hgrows, hanswer⟩ := hkept
    have holdU : old ≤ u.cells.size := Nat.le_trans hold hgrows.covers.cells
    cases hcd with
    | perform hkl =>
      obtain ⟨W', t', w, hle, hfrom', hW', hvw, heventually⟩ :=
        h.value hs hc hfaithful hold hreply hu hW hfrom hkl
      exact ⟨W', t', w, hle, hvw, hW', ⟨holdU, hfrom'⟩, heventually⟩
    | @force z a hza =>
      have hkeeps := h.keeps hs hc hfaithful (t := u) (by rw [hreply]; rfl)
      have hz : z < u.cells.size := Nat.lt_of_lt_of_le hc hgrows.covers.cells
      obtain ⟨W', t', w, hle, hfrom', hW', hvw, heventually⟩ :=
        hkeeps z reply (hfrom z a hza) hz hanswer.2.1 later hu W t a hW hfrom hza
      exact ⟨W', t', w, hle, hvw, hW', ⟨holdU, hfrom'⟩, heventually⟩

section Run

variable {α : Type} {P : Nat → Store → α → Prop} {x : Program α} {s : Store}
  (hs : s.WellFormed s.records.size) (hx : x.Ensures s.records.size s P)
  (hfaithful : ev.Faithful old s.records.size s)

include hs hx hfaithful

theorem along : x.Along carryOut (fun _ => True)
    (fun _ s => True ∧ ev.Faithful old s.records.size s) s :=
  h.invariant.along h.promised hs (hx hs) (x.along_trivial s) hfaithful

/-- Finished cells are faithful when a run has ended. -/
theorem run_keeps {u : Store} (hu : (x.run carryOut s).store? = some u) :
    ev.Faithful old u.records.size u :=
  h.invariant.run h.promised hs (hx hs) (x.along_trivial s) hfaithful hu

end Run

/-- A value is what the run by name gives. -/
theorem run_value {x y : Program Value} {W : Pairing} {s t : Store}
    (hs : s.WellFormed s.records.size) (hx : x.GivesValue s.records.size s)
    (hfaithful : ev.Faithful old s.records.size s) (hold : old ≤ s.cells.size)
    (hxy : x.GivesAlike y t.records.size (W.upto s)) {v : Value} {u : Store}
    (hrun : x.run carryOut s = .value v u) {later : Store}
    (hu : u.Extends u.records.size later) (hW : later.Alike W t) (hfrom : W.From old) :
    EndsAlike old later W v fun n => y.run (ev.carryOutFreely .byName n) t := by
  obtain ⟨w, base, q, W', t', hvw, hq, hle, hW', ⟨-, hfrom'⟩, heventually⟩ :=
    (h.coupling later).run_value hs hx (h.along hs hx hfaithful) hxy hW ⟨hold, hfrom⟩ hu hu hrun
  exact ⟨W', t', w, hle, hfrom', hW', hvw.mono hq, heventually⟩

end RefinesByName

section Settle

variable {c : CellId} {s : Store}

/-- A cell that is put back leaves finished cells as they were, and one that is finished holds
    what its computation gave. -/
theorem Faithful.settle (hc : c < s.cells.size) {o : Outcome Value}
    {P : Store → Value → Prop} (hkept : o.Kept (s.setProgress c .running) P)
    (ho : ∀ t, o.store? = some t → ev.Faithful old t.records.size t)
    (hvalue : ∀ v t, o = .value v t → old ≤ c → ∀ later, t.Extends t.records.size later →
      (later.cell c).task = (s.cell c).task → ev.Recomputes old later c v) {u : Store}
    (hu : (settle c o).store? = some u) : ev.Faithful old u.records.size u := by
  have hsettled (t : Store) (hrunning : (t.cell c).progress = .running) (p : Progress)
      (hfaithful : ev.Faithful old t.records.size t)
      (hp : ∀ v, p = .finished v → old ≤ c → ∀ later, t.Extends t.records.size later →
        ev.Recomputes old later c v) :
      ev.Faithful old (t.setProgress c p).records.size (t.setProgress c p) := by
    have hext := t.settle_extends t.records.size hrunning p
    intro z v hold hz hv later hlater
    rw [Store.setProgress_cell] at hv
    split at hv
    · next heq =>
      obtain ⟨rfl, -⟩ := heq
      exact hp v hv hold later (hext.trans hlater (Nat.le_refl _))
    · have hz' : z < t.cells.size := by simpa using hz
      exact hfaithful.later hext (Nat.le_refl _) hold hz' hv later hlater
  cases o with
  | value v t =>
    cases hu
    obtain ⟨hwf, hgrows, -⟩ := hkept
    refine hsettled t (hgrows.running_start hc) _ (ho t rfl) ?_
    rintro w ⟨⟩ hold later hlater
    refine hvalue v t rfl hold later hlater ?_
    have hct : c < t.cells.size := Nat.lt_of_lt_of_le hc (by simpa using hgrows.covers.cells)
    rw [hlater.task c hct, hgrows.task c (by simpa using hc), Store.setProgress_cell]
    split <;> rfl
  | error e t =>
    cases hu
    obtain ⟨hwf, hgrows⟩ := hkept
    exact hsettled t (hgrows.running_start hc) _ (ho t rfl) (by rintro w ⟨⟩)
  | exhausted => cases hu

end Settle

/-- Starting a cell changes nothing for those that are finished. -/
theorem Faithful.start {s : Store} {c : CellId} (h : ev.Faithful old s.records.size s)
    (hpending : (s.cell c).progress = .pending) :
    ev.Faithful old s.records.size (s.setProgress c .running) := by
  have hext := s.start_extends s.records.size hpending
  intro z v hold hz hv later hlater
  rw [Store.setProgress_cell] at hv
  split at hv
  · cases hv
  · exact h.later hext (Nat.le_refl _) hold (by simpa using hz) hv later hlater

section Round

variable {fuel depth : Nat} (hev : ev.registry.types = [])
  (ih : ∀ depth, ev.RefinesByName old (ev.carryOut fuel depth)) {s : Store}
  (hs : s.WellFormed s.records.size) (hfaithful : ev.Faithful old s.records.size s)

include hev ih hs hfaithful

/-- A cell that is computed is finished with what computing it by name gives. -/
theorem force_keeps_faithful {z : CellId} {t : Store} (hz : z < s.cells.size)
    (ht : (ev.carryOut (fuel + 1) depth (.force z) s).store? = some t) :
    ev.Faithful old t.records.size t := by
  have hr : ev.registry.Sound := Registry.sound_of_types_eq_nil hev
  cases hprogress : (s.cell z).progress with
  | finished v =>
    rw [carryOut_force_finished ev fuel depth hprogress] at ht
    cases ht
    exact hfaithful
  | running =>
    rw [carryOut_force_running ev fuel depth hprogress] at ht
    cases ht
    exact hfaithful
  | pending =>
    rw [carryOut_force_pending ev fuel depth hprogress] at ht
    have hstart := hs.start hprogress
    have htask := hs.task_valid hz
    have hbegun := hfaithful.start hprogress
    have hpromised := carryOut_promised hr fuel depth (.perform (s.cell z).task) _ hstart htask
    refine Faithful.settle hz hpromised (fun u => (ih depth).keeps hstart htask hbegun) ?_ ht
    intro v u hu hold later hlater hcell W t' a hW hfrom hza
    obtain ⟨-, -, htasks, -, -⟩ := hW.cell hza
    rw [hcell] at htasks
    have hsize : old ≤ (s.setProgress z .running).cells.size := by
      simpa using Nat.le_of_lt (Nat.lt_of_le_of_lt hold hz)
    refine ((ih depth).value hstart htask hbegun hsize hu hlater hW hfrom htasks).step ?_
    exact fun n w t h => h

theorem carryOut_keeps_faithful {c : Call} {t : Store} (hc : c.Valid s)
    (ht : (ev.carryOut (fuel + 1) depth c s).store? = some t) :
    ev.Faithful old t.records.size t := by
  have hr : ev.registry.Sound := Registry.sound_of_types_eq_nil hev
  cases c with
  | perform k =>
    have hgives : (ev.taskProgram k).GivesValue s.records.size s := taskProgram_givesValue hr hc
    cases k with
    | evaluate e scope path =>
      rcases Nat.lt_or_ge depth ev.maxDepth with hdepth | hdepth
      · rw [carryOut_evaluate ev fuel s hdepth] at ht
        exact (ih (depth + 1)).run_keeps hs hgives hfaithful
          ((Outcome.store?_through _ _).symm.trans ht)
      · rw [carryOut_evaluate_deep ev fuel s hdepth] at ht
        cases ht
        exact hfaithful
    | element initializer index path location =>
      rw [carryOut_element] at ht
      exact (ih depth).run_keeps hs hgives hfaithful ((Outcome.store?_through _ _).symm.trans ht)
    | constant v =>
      cases ht
      exact hfaithful
  | force z => exact force_keeps_faithful hev ih hs hfaithful hc ht
  | render spec v => exact (ih depth).run_keeps hs (Render.value_ensures spec hc) hfaithful ht
  | tie work visited => exact (ih depth).run_keeps hs (Network.tieStep_ensures hc) hfaithful ht

/-- What a task computes is what a task that is alike computes by name. -/
theorem perform_byName {k l : Task} {u later t : Store} {v : Value} {W : Pairing}
    (hk : k.Valid s) (hold : old ≤ s.cells.size)
    (hrun : ev.carryOut (fuel + 1) depth (.perform k) s = .value v u)
    (hu : u.Extends u.records.size later) (hW : later.Alike W t) (hfrom : W.From old)
    (hkl : k.Alike W l) :
    EndsAlike old later W v fun n => ev.carryOutFreely .byName n (.perform l) t := by
  have hr : ev.registry.Sound := Registry.sound_of_types_eq_nil hev
  have hgives : (ev.taskProgram k).GivesValue s.records.size s := taskProgram_givesValue hr hk
  have halike : (ev.taskProgram k).GivesAlike (ev.taskProgram l) t.records.size (W.upto s) :=
    taskProgram_givesAlike hev (hkl.upto hk)
  cases hkl with
  | evaluate e hscope path =>
    rcases Nat.lt_or_ge depth ev.maxDepth with hdepth | hdepth
    · rw [carryOut_evaluate ev fuel s hdepth] at hrun
      refine ((ih (depth + 1)).run_value hs hgives hfaithful hold halike
        (Outcome.through_eq_value hrun) hu hW hfrom).step fun n w t' h => ?_
      exact (ev.carryOutFreely_evaluate .byName n t e _ path).trans (by rw [h]; rfl)
    · rw [carryOut_evaluate_deep ev fuel s hdepth] at hrun
      cases hrun
  | element hfun hindex path location =>
    rw [carryOut_element] at hrun
    refine ((ih depth).run_value hs hgives hfaithful hold halike
      (Outcome.through_eq_value hrun) hu hW hfrom).step fun n w t' h => ?_
    exact (ev.carryOutFreely_element .byName n t _ _ path location).trans (by rw [h]; rfl)
  | @constant _ w hvw =>
    rw [carryOut_constant] at hrun
    cases hrun
    exact ⟨W, t, w, W.le_refl, hfrom, hW, hvw, Outcome.Eventually.congr ⟨0, fun _ _ => rfl⟩
      fun n => ev.carryOutFreely_constant .byName n t w⟩

end Round

/-- With any fuel and at any depth, calls are answered as by name. -/
theorem carryOut_refinesByName (hev : ev.registry.types = []) (fuel depth : Nat) :
    ev.RefinesByName old (ev.carryOut fuel depth) := by
  have hpromised := carryOut_promised (Registry.sound_of_types_eq_nil hev)
  induction fuel generalizing depth with
  | zero =>
    refine ⟨hpromised 0 depth, fun _ _ _ ht => ?_, fun _ _ _ _ ht => ?_⟩
    · rw [carryOut_zero] at ht
      cases ht
    · rw [carryOut_zero] at ht
      cases ht
  | succ fuel ih =>
    refine ⟨hpromised (fuel + 1) depth, fun hs hc hfaithful ht => ?_,
      fun hs hk hfaithful hold hrun _ _ _ _ hu hW hfrom hkl => ?_⟩
    · exact carryOut_keeps_faithful hev ih hs hfaithful hc ht
    · exact perform_byName hev ih hs hfaithful hk hold hrun hu hW hfrom hkl

end Evaluator

end NetDesc
