import NetDesc.Proofs.Program.Calls
import NetDesc.Proofs.Sharing.Failures

namespace NetDesc

open Outcome (Tracks)

namespace Evaluator

/-- Fuel that is enough for a call. Accessing a cell may call an initializer of an array that
    evaluates its body, and then one level of expressions is used up, so three calls on each
    level are enough. -/
def enoughFuel (ev : Evaluator) (depth : Nat) : Call → Nat
  | .perform (.evaluate _ _ _) => 3 * (ev.maxDepth - depth) + 1
  | .perform (.element _ _ _ _) => 3 * (ev.maxDepth - depth) + 2
  | .perform (.constant _) => 1
  | _ => 3 * (ev.maxDepth - depth) + 3

variable {ev : Evaluator} {old : Nat}

theorem enoughFuel_le (ev : Evaluator) (depth : Nat) (c : Call) :
    ev.enoughFuel depth c ≤ 3 * (ev.maxDepth - depth) + 3 := by
  unfold enoughFuel
  split <;> omega

theorem enoughFuel_perform (ev : Evaluator) (depth : Nat) (k : Task) :
    ev.enoughFuel depth (.perform k) ≤ 3 * (ev.maxDepth - depth) + 2 := by
  cases k <;> simp only [enoughFuel] <;> omega

theorem enoughFuel_pos (ev : Evaluator) (depth : Nat) (c : Call) : 0 < ev.enoughFuel depth c := by
  unfold enoughFuel
  split <;> omega

/-- A run ends if its calls do. -/
theorem RefinesByName.run_ends {carryOut : (c : Call) → Store → Outcome c.Reply}
    (h : ev.RefinesByName old carryOut) {x y : Program Value} {W : Pairing} {s t : Store}
    (hs : s.WellFormed s.records.size) (hx : x.GivesValue s.records.size s)
    (hfaithful : ev.Faithful old s.records.size s) (hold : old ≤ s.cells.size)
    (hxy : x.GivesAlike y t.records.size (W.upto s)) (hW : s.Alike W t) (hfrom : W.From old)
    {P : Call → Prop} (hcallsP : x.Calls P)
    (hcalls : ∀ {c d : Call} {s t : Store} {W : Pairing}, s.WellFormed s.records.size →
      c.Valid s → ev.Faithful old s.records.size s → old ≤ s.cells.size → s.Alike W t →
        W.From old → c.Alike W d → P c → carryOut c s ≠ .exhausted) :
    x.run carryOut s ≠ .exhausted := by
  intro hrun
  obtain ⟨c, next, u, hcall, hgiven⟩ := Program.reaches_of_run_exhausted hrun
  obtain ⟨hwf, hc, hfaithful', -, hold', d, next', W', t', hW', hfrom', hcd, -⟩ :=
    h.run_call hs hx hfaithful hold hxy hW hfrom hcall
  exact hcalls hwf hc hfaithful' hold' hW' hfrom' hcd (hcallsP.reaches hcall) hgiven

/-- With enough fuel no call is given up. -/
theorem carryOut_ends (hev : ev.registry.types = []) {fuel depth : Nat} {c d : Call} {s t : Store}
    {W : Pairing} (hfuel : ev.enoughFuel depth c ≤ fuel) (hs : s.WellFormed s.records.size)
    (hc : c.Valid s) (hfaithful : ev.Faithful old s.records.size s) (hold : old ≤ s.cells.size)
    (hW : s.Alike W t) (hfrom : W.From old) (hcd : c.Alike W d) :
    ev.carryOut fuel depth c s ≠ .exhausted := by
  have hr : ev.registry.Sound := Registry.sound_of_types_eq_nil hev
  induction fuel generalizing depth c d s t W with
  | zero => exact absurd (ev.enoughFuel_pos depth c) (Nat.not_lt.2 hfuel)
  | succ fuel ih =>
    cases hcd with
    | @perform k l hkl =>
      have hgives : (ev.taskProgram k).GivesValue s.records.size s := taskProgram_givesValue hr hc
      have halike : (ev.taskProgram k).GivesAlike (ev.taskProgram l) t.records.size (W.upto s) :=
        taskProgram_givesAlike hev (hkl.upto hc)
      cases hkl with
      | evaluate e hscope path =>
        rcases Nat.lt_or_ge depth ev.maxDepth with hdepth | hdepth
        · rw [carryOut_evaluate ev fuel s hdepth]
          intro hgiven
          have hlevel (c : Call) : ev.enoughFuel (depth + 1) c ≤ fuel := by
            have hle := ev.enoughFuel_le (depth + 1) c
            simp only [enoughFuel] at hfuel
            omega
          refine (ev.carryOut_refinesByName hev fuel (depth + 1)).run_ends hs hgives hfaithful hold
            halike hW hfrom (Program.calls_trivial _) ?_ (Outcome.through_eq_exhausted hgiven)
          exact fun hs hc hfaithful hold hW hfrom hcd _ =>
            ih (hlevel _) hs hc hfaithful hold hW hfrom hcd
        · rw [carryOut_evaluate_deep ev fuel s hdepth]
          rintro ⟨⟩
      | @element f g hfun v w hindex path location =>
        rw [carryOut_element]
        intro hgiven
        refine (ev.carryOut_refinesByName hev fuel depth).run_ends hs hgives hfaithful hold halike
          hW hfrom (f.apply_calls [v] [] path location) ?_ (Outcome.through_eq_exhausted hgiven)
        rintro c d s t W hs hc hfaithful hold hW hfrom hcd ⟨e, scope, path, rfl⟩
        exact ih (Nat.le_of_succ_le_succ hfuel) hs hc hfaithful hold hW hfrom hcd
      | constant hvw =>
        rw [carryOut_constant]
        rintro ⟨⟩
    | @force z a hza =>
      cases hprogress : (s.cell z).progress with
      | finished v =>
        rw [carryOut_force_finished ev fuel depth hprogress]
        rintro ⟨⟩
      | running =>
        rw [carryOut_force_running ev fuel depth hprogress]
        rintro ⟨⟩
      | pending =>
        rw [carryOut_force_pending ev fuel depth hprogress]
        intro hgiven
        have htask := ev.enoughFuel_perform depth (s.cell z).task
        obtain ⟨-, -, htasks, -, -⟩ := hW.cell hza
        have hstart := s.start_extends s.records.size hprogress
        have hvalid : (Call.perform (s.cell z).task).Valid (s.setProgress z .running) :=
          hs.task_valid hc
        simp only [enoughFuel] at hfuel
        exact ih (by omega) (hs.start hprogress) hvalid
          (hfaithful.start hprogress) (Nat.le_trans hold hstart.covers.cells) (hW.later hstart)
          hfrom (.perform htasks) (settle_eq_exhausted hgiven)

end Evaluator

end NetDesc
