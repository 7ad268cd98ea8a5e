import NetDesc.Proofs.Matching.Standard
import NetDesc.Proofs.Variation.Unevaluated
import NetDesc.Session

namespace NetDesc

variable {α β : Type} {K : Comparison} {m : Matching}

namespace Evaluator

variable {ev : Evaluator} (hev : ev.registry.Corresponds K)

include hev

theorem carryOut_corresponds (fuel depth : Nat) {c d : Call} (hcd : c.Corresponds K m d)
    {s t : Store} (hst : s.Corresponds K m t) :
    (ev.carryOut fuel depth c s).Corresponds K m (c.RepliesCorrespond K d)
      (ev.carryOut fuel depth d t) := by
  induction fuel generalizing depth m c d s t with
  | zero =>
    rw [carryOut_zero, carryOut_zero]
    exact .exhausted
  | succ fuel ih =>
    let C (depth : Nat) : Carriers K := {
      left := ev.carryOut fuel depth
      right := ev.carryOut fuel depth
      corresponds := fun hcd hst => ih depth hcd hst }
    cases hcd with
    | perform htask =>
      have hprogram := taskProgram_corresponds hev htask
      cases htask with
      | @evaluate e e' he scope scope' hscope path =>
        have hlocation := K.expr_location he
        by_cases hdepth : depth < ev.maxDepth
        · rw [carryOut_evaluate ev fuel s hdepth, carryOut_evaluate ev fuel t hdepth]
          exact (hprogram (C (depth + 1)) hst).through hlocation
        · rw [carryOut_evaluate_deep ev fuel s (Nat.le_of_not_lt hdepth),
            carryOut_evaluate_deep ev fuel t (Nat.le_of_not_lt hdepth), hlocation]
          exact .error _ le_rfl hst
      | element hf hv path location =>
        exact (hprogram (C depth) hst).through rfl
      | constant h => exact .value le_rfl hst h
    | @force c d hcell =>
      have halike := hst.cell hcell
      have hprogress := halike.progress
      generalize hs : (s.cell c).progress = p at hprogress
      generalize ht : (t.cell d).progress = q at hprogress
      cases hprogress with
      | finished hvw =>
        rw [carryOut_force_finished ev fuel depth hs, carryOut_force_finished ev fuel depth ht]
        exact .value le_rfl hst hvw
      | running =>
        rw [carryOut_force_running ev fuel depth hs, carryOut_force_running ev fuel depth ht,
          Cell.cyclic, Cell.cyclic, halike.path, halike.location]
        exact .error _ le_rfl hst
      | pending =>
        rw [carryOut_force_pending ev fuel depth hs, carryOut_force_pending ev fuel depth ht]
        have hbegun := hst.setProgress hcell .running
        exact (ih depth (.perform halike.task) hbegun).settle hcell
    | render hordered spec h => exact Render.value_corresponds hordered spec h (C depth) hst
    | tie hwork hvisited => exact Network.tieStep_corresponds hwork hvisited (C depth) hst

theorem run_corresponds {Q : Matching → α → β → Prop} {p : Program α} {q : Program β}
    (hpq : p.Corresponds K m Q q) (fuel : Nat) {s t : Store} (hst : s.Corresponds K m t) :
    (ev.run fuel p s).Corresponds K m Q (ev.run fuel q t) :=
  hpq {
    left := ev.carryOut fuel 0
    right := ev.carryOut fuel 0
    corresponds := fun hcd hst => carryOut_corresponds hev fuel 0 hcd hst } hst

/-- Trees that may stand for each other have members that correspond, with the same fuel and
    whatever else there is in the stores. -/
theorem evaluateMember_corresponds {root root' : Expr} (hroot : K.expr root root') (fuel : Nat)
    (name : String) {s t : Store} (hprinted : t.printed = K.before ++ s.printed) :
    (ev.evaluateMember fuel root name s).Corresponds K ⊥ (Value.Corresponds K)
      (ev.evaluateMember fuel root' name t) := by
  have htree : (ev.wholeTree root).CorrespondsValue K ⊥ (ev.wholeTree root') :=
    .bind (Program.newRecord_corresponds .none) fun _ _ _ _ hscope =>
      Program.evaluate_corresponds hroot hscope ev.rootPath
  have hlocation := K.expr_location hroot
  refine (run_corresponds hev htree fuel (.start hprinted)).bind fun _ hvw hst => ?_
  rw [hlocation]
  have hmember := Program.memberOf_corresponds hvw name root'.location
  exact (run_corresponds hev hmember fuel hst).through rfl

end Evaluator

/-- From stores to which the same had been printed, runs that correspond end in the same way, as far
    as one can tell without looking into any place. -/
theorem Outcome.Corresponds.endsSame {o o' : Outcome Value} (hbefore : K.before = #[])
    (h : o.Corresponds K m (Value.Corresponds K) o') : o.EndsSame o' := by
  cases h with
  | value hmn hst hvw => exact ⟨hvw.same, by simpa [hbefore] using hst.printed.symm⟩
  | error e hmn hst => exact ⟨rfl, by simpa [hbefore] using hst.printed.symm⟩
  | exhausted => trivial

end NetDesc
