import NetDesc.Proofs.Sharing.ByNeed
import NetDesc.Proofs.Sharing.Failures

namespace NetDesc

open Outcome (Eventually Tracks)

namespace EvalError

/-- Whether evaluation stopped because expressions are nested too deep. -/
def IsLimit (e : EvalError) : Prop :=
  match e.cause with
  | .recursionLimit _ => True
  | _ => False

theorem isLimit_through {e : EvalError} {location : Location} :
    (e.through location).IsLimit ↔ e.IsLimit := by
  rw [IsLimit, IsLimit, through_cause]

end EvalError

namespace Evaluator

/-- Another evaluation has come to `t`, in the middle of what is being computed at `s`. A cell
    that one of them meets while it is being computed is being computed by the other. -/
structure InStep (ev : Evaluator) (old : Nat) (own : CellId → Option CellId)
    (owner : Option CellId) (s : Store) (W : Pairing) (t : Store) : Prop where
  wellFormed : s.WellFormed s.records.size
  replayable : ev.Replayable old own s.records.size s
  old_le : old ≤ s.cells.size
  alike : s.Alike W t
  coupled : Coupled old own s W t
  within : Within own owner s W t
  busy : ∀ {c d}, W.cell c d → (t.cell d).progress = .running → (s.cell c).progress = .running
  active : ∀ {c}, old ≤ c → (s.cell c).progress = .running →
    ∃ d, W.cell c d ∧ (t.cell d).progress = .running

variable {ev : Evaluator} {old : Nat} {own : CellId → Option CellId} {owner : Option CellId}
  {s : Store} {W : Pairing} {t : Store}

namespace InStep

variable (h : ev.InStep old own owner s W t)

include h

/-- Nothing is finished while it is computed. -/
theorem idle {u : Store} (hsu : s.Grows s.records.size u) : Idle u W t := by
  intro c d v hcd hd _ hv
  rw [(hsu.running c).2 (h.busy hcd hd)] at hv
  cases hv

/-- Both evaluations go on to a point where they are not computing anything else. -/
theorem later {u : Store} {W' : Pairing} {t' : Store} (hsu : s.Grows s.records.size u)
    (hu : u.WellFormed u.records.size) (hreplayable : ev.Replayable old own u.records.size u)
    (hW : u.Alike W' t') (hcoupled : Coupled old own u W' t')
    (hframe : Frame own (fun c => own c = owner ∧ c < u.cells.size) W t W' t') :
    ev.InStep old own owner u W' t' where
  wellFormed := hu
  replayable := hreplayable
  old_le := Nat.le_trans h.old_le hsu.covers.cells
  alike := hW
  coupled := hcoupled
  within := h.within.frame hframe hsu.covers.cells
  busy := by
    intro c d hcd hd
    have hd' := (hframe.running d).1 hd
    rcases hframe.new hcd with hcd | ⟨hnew, -⟩
    · exact (hsu.running c).2 (h.busy hcd hd')
    · exact absurd (Store.inside_of_running hd') (Nat.not_lt.2 hnew)
  active := by
    intro c hold hc
    obtain ⟨d, hcd, hd⟩ := h.active hold ((hsu.running c).1 hc)
    exact ⟨d, hframe.le.cell hcd, (hframe.running d).2 hd⟩

/-- Both evaluations start to compute a cell. -/
theorem start {z a : CellId} (hza : W.cell z a) (hz : (s.cell z).progress = .pending)
    (ha : (t.cell a).progress = .pending) :
    ev.InStep old own (some z) (s.setProgress z .running) W (t.setProgress a .running) := by
  have hext := s.start_extends s.records.size hz
  refine ⟨h.wellFormed.start hz, h.replayable.start hz,
    Nat.le_trans h.old_le hext.covers.cells, (h.alike.later hext).setProgress a _,
    (h.coupled.grow h.alike hext).setProgress hza (by rintro ⟨⟩) (by rintro w ⟨⟩),
    h.coupled.within_start hza ha _, ?_, ?_⟩
  · intro c d hcd hd
    rcases Store.setProgress_running_iff.1 hd with ⟨rfl, -⟩ | hd
    · rw [h.coupled.injective hcd hza]
      exact Store.setProgress_running_iff.2 (.inl ⟨rfl, (h.alike.cell hza).1⟩)
    · exact Store.setProgress_running_iff.2 (.inr (h.busy hcd hd))
  · intro c hold hc
    rcases Store.setProgress_running_iff.1 hc with ⟨rfl, -⟩ | hc
    · exact ⟨a, hza, Store.setProgress_running_iff.2 (.inl ⟨rfl, h.coupled.inside hza⟩)⟩
    · obtain ⟨d, hcd, hd⟩ := h.active hold hc
      exact ⟨d, hcd, Store.setProgress_running_iff.2 (.inr hd)⟩

/-- A cell that waits in one evaluation waits in the other. -/
theorem pending {z a : CellId} (hza : W.cell z a) (hz : (s.cell z).progress = .pending) :
    (t.cell a).progress = .pending := by
  cases ha : (t.cell a).progress with
  | pending => rfl
  | running =>
    rw [h.busy hza ha] at hz
    cases hz
  | finished w =>
    obtain ⟨v, hv, -⟩ := h.coupled.ahead hza ha
    rw [hv] at hz
    cases hz

/-- A cell that depends on itself in one evaluation does so in the other, and both say it in the
    same words. -/
theorem running {z a : CellId} (hza : W.cell z a) (hz : (s.cell z).progress = .running) :
    (t.cell a).progress = .running ∧ (t.cell a).cyclic = (s.cell z).cyclic := by
  obtain ⟨-, -, -, hlocation, hpath⟩ := h.alike.cell hza
  obtain ⟨b, hzb, hb⟩ := h.active (h.coupled.recent hza) hz
  have hab : b = a := h.coupled.functional hzb hza
  exact ⟨hab ▸ hb, by rw [Cell.cyclic, Cell.cyclic, hlocation, hpath]⟩

end InStep

namespace RefinesByNeed

variable {carryOut : (c : Call) → Store → Outcome c.Reply}
  {owns : Option CellId → Call → Store → Prop} (h : ev.RefinesByNeed old own carryOut owns)
  {x y : Program Value} (hstep : ev.InStep old own owner s W t)
  (hx : x.GivesValue s.records.size s)
  (halong : x.Along carryOut (fun c => own c = owner) (owns owner) s)
  (hxy : x.GivesAlike y t.records.size (W.upto s))

include h hstep hx halong hxy

/-- An error that the program raises itself is raised by the other run. -/
theorem run_raise {e : EvalError} {u : Store} (hreaches : x.Reaches carryOut s (.raise e) u) :
    ∃ t', Eventually (fun n => y.run (ev.carryOutFreely .byNeed n) t) (.error e t') := by
  have hs := hstep.wellFormed
  obtain ⟨b, -, hwf, hgrows, -⟩ := (hx hs).reaches h.promised hs hreaches
  have hext := hgrows.toExtends
  have hcoupling := h.coupling owner u hstep.old_le hstep.within (hstep.idle hgrows)
  exact (hcoupling.run_raise hs hx (h.along hs hx hstep.replayable halong) hxy
    (hstep.alike.later hext) ⟨Nat.le_refl _, hstep.coupled.grow hstep.alike hext, .refl _ _ W t⟩
    (.refl _ u) (.refl _ u) hreaches).2

/-- Where one run makes a call the other one makes a call that is alike. -/
theorem run_call {c : Call} {next : c.Reply → Program Value} {u : Store}
    (hreaches : x.Reaches carryOut s (.call c next) u) :
    c.Valid u ∧ owns owner c u ∧
      ∃ (d : Call) (next' : d.Reply → Program Value) (W' : Pairing) (t' : Store),
        ev.InStep old own owner u W' t' ∧ c.Alike W' d ∧
          Tracks (fun n => y.run (ev.carryOutFreely .byNeed n) t)
            fun n => (Program.call d next').run (ev.carryOutFreely .byNeed n) t' := by
  have hs := hstep.wellFormed
  obtain ⟨b, -, hwf, hgrows, hcall⟩ := (hx hs).reaches h.promised hs hreaches
  have hext := hgrows.toExtends
  have halong' := h.along hs hx hstep.replayable halong
  have hcoupling := h.coupling owner u hstep.old_le hstep.within (hstep.idle hgrows)
  obtain ⟨⟨howns, hreplayable⟩, -⟩ := halong'.reaches hreaches
  obtain ⟨d, next', W', t', -, hW', hcd, ⟨-, hcoupled', hframe⟩, htracks⟩ :=
    hcoupling.run_call hs hx halong' hxy (hstep.alike.later hext)
      ⟨Nat.le_refl _, hstep.coupled.grow hstep.alike hext, .refl _ _ W t⟩ (.refl _ u) (.refl _ u)
      hreaches
  exact ⟨hcall.1, howns, d, next', W', t',
    hstep.later hgrows hwf.seal hreplayable hW' hcoupled' hframe, hcd, htracks⟩

/-- An error ends both runs. -/
theorem run_error (hcalls : ∀ {c d : Call} {s t u : Store} {e : EvalError} {W : Pairing},
      ev.InStep old own owner s W t → c.Valid s → owns owner c s → c.Alike W d →
      carryOut c s = .error e u → ¬ e.IsLimit →
        ∃ t', Eventually (fun n => ev.carryOutFreely .byNeed n d t) (.error e t'))
    {e : EvalError} {u : Store} (hrun : x.run carryOut s = .error e u) (he : ¬ e.IsLimit) :
    ∃ t', Eventually (fun n => y.run (ev.carryOutFreely .byNeed n) t) (.error e t') := by
  rcases Program.reaches_of_run_error hrun with hraise | ⟨c, next, v, hcall, hfails⟩
  · exact h.run_raise hstep hx halong hxy hraise
  · obtain ⟨hc, howns, d, next', W', t', hstep', hcd, htracks⟩ :=
      h.run_call hstep hx halong hxy hcall
    obtain ⟨t'', n, hn⟩ := hcalls hstep' hc howns hcd hfails he
    refine ⟨t'', htracks.outcome ⟨n, fun m hm => ?_⟩⟩
    have hm : ev.carryOutFreely .byNeed m d t' = .error e t'' := hn m hm
    simp only [Program.run, hm]

end RefinesByNeed

/-- Evaluations in step fail in the same way. -/
theorem carryOut_fails (hev : ev.registry.types = []) {fuel depth : Nat} {c d : Call} {u : Store}
    {e : EvalError} (hstep : ev.InStep old own owner s W t) (hc : c.Valid s)
    (howns : ev.Owns own fuel depth owner c s) (hcd : c.Alike W d)
    (hrun : ev.carryOut fuel depth c s = .error e u) (he : ¬ e.IsLimit) :
    ∃ t', Eventually (fun n => ev.carryOutFreely .byNeed n d t) (.error e t') := by
  have hr : ev.registry.Sound := Registry.sound_of_types_eq_nil hev
  induction fuel generalizing depth owner c d s t u e W with
  | zero =>
    rw [carryOut_zero] at hrun
    cases hrun
  | succ fuel ih =>
    cases hcd with
    | @perform k l hkl =>
      have hgives : (ev.taskProgram k).GivesValue s.records.size s := taskProgram_givesValue hr hc
      have halike : (ev.taskProgram k).GivesAlike (ev.taskProgram l) t.records.size (W.upto s) :=
        taskProgram_givesAlike hev (hkl.upto hc)
      cases hkl with
      | evaluate f hscope path =>
        rcases Nat.lt_or_ge depth ev.maxDepth with hdepth | hdepth
        · rw [carryOut_evaluate ev fuel s hdepth] at hrun
          obtain ⟨e, herror, rfl⟩ := Outcome.through_eq_error hrun
          rw [EvalError.isLimit_through] at he
          obtain ⟨t', hother⟩ := (ev.carryOut_refinesByNeed hev fuel (depth + 1)).run_error hstep
            hgives (howns hdepth) halike ih herror he
          exact ⟨t', (hother.through f.location).congr fun n =>
            ev.carryOutFreely_evaluate .byNeed n t f _ path⟩
        · rw [carryOut_evaluate_deep ev fuel s hdepth] at hrun
          cases hrun
          exact absurd trivial he
      | element hfun hindex path location =>
        rw [carryOut_element] at hrun
        obtain ⟨e, herror, rfl⟩ := Outcome.through_eq_error hrun
        rw [EvalError.isLimit_through] at he
        obtain ⟨t', hother⟩ := (ev.carryOut_refinesByNeed hev fuel depth).run_error hstep hgives
          howns halike ih herror he
        exact ⟨t', (hother.through location).congr fun n =>
          ev.carryOutFreely_element .byNeed n t _ _ path location⟩
      | constant hvw =>
        rw [carryOut_constant] at hrun
        cases hrun
    | @force z a hza =>
      cases hprogress : (s.cell z).progress with
      | finished v =>
        rw [carryOut_force_finished ev fuel depth hprogress] at hrun
        cases hrun
      | running =>
        rw [carryOut_force_running ev fuel depth hprogress] at hrun
        cases hrun
        obtain ⟨ha, hsame⟩ := hstep.running hza hprogress
        have hcyclic : Eventually (fun n => ev.carryOutFreely .byNeed (n + 1) (.force a) t)
            (.error (s.cell z).cyclic t) :=
          ⟨0, fun n _ => hsame ▸ ev.carryOutFreely_force_running n ha⟩
        exact ⟨t, hcyclic.congr fun _ => rfl⟩
      | pending =>
        rw [carryOut_force_pending ev fuel depth hprogress] at hrun
        obtain ⟨v, herror, -⟩ := settle_eq_error hrun
        have hwaits := hstep.pending hza hprogress
        obtain ⟨-, -, htask, -, -⟩ := hstep.alike.cell hza
        have hvalid : (Call.perform (s.cell z).task).Valid (s.setProgress z .running) :=
          hstep.wellFormed.task_valid hc
        obtain ⟨t', hother⟩ := ih (hstep.start hza hprogress hwaits) hvalid (howns hprogress)
          (.perform htask) herror he
        exact ⟨t'.setProgress a .pending, (hother.settle a).congr fun n =>
          ev.carryOutFreely_force_pending n hwaits⟩

end Evaluator

end NetDesc
