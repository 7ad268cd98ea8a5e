import NetDesc.Expr.Build
import NetDesc.Proofs.Session
import NetDesc.Proofs.Sharing.Failures

namespace NetDesc

open Outcome (Eventually Tracks)

/-- Before an evaluation starts nothing corresponds. -/
theorem Store.alike_empty (s t : Store) : s.Alike .empty t :=
  ⟨fun h => h.elim, fun h => h.elim⟩

namespace Evaluator

variable {ev : Evaluator} (hev : ev.registry.types = []) (root : Expr) (name : String)
  {s : Store} (hs : s.WellFormed s.records.size)

theorem faithful_start : ev.Faithful s.cells.size s.records.size s :=
  fun _ _ hold hz => absurd hz (Nat.not_lt.2 hold)

theorem blocked_start {n : Nat} : ev.Blocked s.cells.size n s := by
  intro z hold hz
  rw [Store.cell_of_size_le hold] at hz
  cases hz

/-- Once the tree is evaluated by name, its member is what is left to be evaluated. -/
theorem memberFreely_tracks {strategy : Strategy} {t t' : Store} {w : Value}
    (h : Eventually (fun n => (ev.wholeTree root).run (ev.carryOutFreely strategy n) t)
      (.value w t')) :
    Tracks (fun n => ev.memberFreely strategy n root name t) fun n =>
      ((Program.memberOf w name root.location).run (ev.carryOutFreely strategy n) t').through
        root.location :=
  h.tracks_bind (fun n m hnm => Program.run_le (ev.carryOutFreely_monotone strategy n m hnm) _ t) _

theorem memberFreely_monotone (strategy : Strategy) {n m : Nat} (hnm : n ≤ m) (t : Store) :
    ev.memberFreely strategy n root name t ≤ ev.memberFreely strategy m root name t := by
  have hrun {α : Type} (x : Program α) (t : Store) :=
    Program.run_le (ev.carryOutFreely_monotone strategy n m hnm) x t
  exact Outcome.bind_le (hrun _ t) fun v t' => Outcome.through_le (hrun _ t') root.location

include hev hs

/-- The tree has been evaluated, with sharing and by name. -/
theorem topLevel_value {fuel : Nat} {v : Value} {u : Store}
    (hrun : ev.evaluateTopLevel fuel root s = .value v u) (t : Store) :
    u.WellFormed u.records.size ∧ s.Grows s.records.size u ∧ v.Valid u ∧
      ev.Faithful s.cells.size u.records.size u ∧
        ∀ later, u.Extends u.records.size later → EndsAlike s.cells.size later .empty v
          fun n => (ev.wholeTree root).run (ev.carryOutFreely .byName n) t := by
  have hrefines : ev.RefinesByName s.cells.size (ev.carryOut fuel 0) :=
    ev.carryOut_refinesByName hev fuel 0
  have hgives : (ev.wholeTree root).GivesValue s.records.size s := ev.wholeTree_givesValue root
  have hkept : ((ev.wholeTree root).run (ev.carryOut fuel 0) s).Kept s fun t v => v.Valid t :=
    Program.Ensures.run hrefines.promised hs hgives
  rw [Evaluator.evaluateTopLevel, Evaluator.run] at hrun
  rw [hrun] at hkept
  refine ⟨hkept.1, hkept.2.1, hkept.2.2, ?_, fun later hlater => ?_⟩
  · exact hrefines.run_keeps hs hgives faithful_start (by rw [hrun]; rfl)
  · exact hrefines.run_value hs hgives faithful_start (Nat.le_refl _) (ev.wholeTree_givesAlike root)
      hrun hlater (Store.alike_empty _ _) fun _ _ h => h.elim

/-- A value of a member is what evaluation by name gives. -/
theorem evaluateMember_value {fuel : Nat} {v : Value} {u : Store}
    (hrun : ev.evaluateMember fuel root name s = .value v u) (t : Store) :
    ∃ (w : Value) (t' : Store), v.Same w ∧
      Eventually (fun n => ev.memberFreely .byName n root name t) (.value w t') := by
  have hrefines : ev.RefinesByName s.cells.size (ev.carryOut fuel 0) :=
    ev.carryOut_refinesByName hev fuel 0
  rw [evaluateMember] at hrun
  cases htop : ev.evaluateTopLevel fuel root s with
  | value r s' =>
    rw [htop] at hrun
    have hmember := Outcome.through_eq_value hrun
    obtain ⟨hs', hgrows, hr, hfaithful, hby⟩ := topLevel_value hev root hs htop t
    have hgives : (Program.memberOf r name root.location).GivesValue s'.records.size s' :=
      Program.memberOf_givesValue hr name root.location
    have hkept : ((Program.memberOf r name root.location).run (ev.carryOut fuel 0) s').Kept s'
        fun t v => v.Valid t := Program.Ensures.run hrefines.promised hs' hgives
    rw [Evaluator.run] at hmember
    rw [hmember] at hkept
    have hlater : s'.Extends s'.records.size u := hkept.2.1.toExtends
    obtain ⟨W, t', r', -, hfrom, hW, hrr, hgiven⟩ := hby u hlater
    obtain ⟨W', t'', w, -, -, -, hvw, heventually⟩ :=
      hrefines.run_value hs' hgives hfaithful hgrows.covers.cells
        (Program.memberOf_givesAlike (hrr.upto hr) name root.location) hmember (.refl _ u) hW hfrom
    exact ⟨w, t'', hvw.same,
      (memberFreely_tracks root name hgiven).outcome (heventually.through root.location)⟩
  | error e s' =>
    rw [htop] at hrun
    cases hrun
  | exhausted =>
    rw [htop] at hrun
    cases hrun

/-- An error that programs raise is raised by evaluation by name. -/
theorem evaluateMember_raises {fuel : Nat} {e : EvalError} {u : Store}
    (hrun : ev.evaluateMember fuel root name s = .error e u) (he : e.IsRaised) (t : Store) :
    ∃ t', Eventually (fun n => ev.memberFreely .byName n root name t) (.error e t') := by
  have hrefines : ev.RefinesByName s.cells.size (ev.carryOut fuel 0) :=
    ev.carryOut_refinesByName hev fuel 0
  rw [evaluateMember] at hrun
  cases htop : ev.evaluateTopLevel fuel root s with
  | value r s' =>
    rw [htop] at hrun
    obtain ⟨e, hmember, rfl⟩ := Outcome.through_eq_error hrun
    obtain ⟨hs', hgrows, hr, hfaithful, hby⟩ := topLevel_value hev root hs htop t
    obtain ⟨W, t', r', -, hfrom, hW, hrr, hgiven⟩ := hby s' (.refl _ s')
    obtain ⟨t'', heventually⟩ := hrefines.run_error hs'
      (Program.memberOf_givesValue hr name root.location) hfaithful hgrows.covers.cells
      (Program.memberOf_givesAlike (hrr.upto hr) name root.location) hW hfrom
      (carryOut_raises hev) hmember (EvalError.isRaised_through.1 he)
    exact ⟨t'',
      (memberFreely_tracks root name hgiven).outcome (heventually.through root.location)⟩
  | error e' s' =>
    rw [htop] at hrun
    cases hrun
    obtain ⟨t', n, hn⟩ := hrefines.run_error hs (ev.wholeTree_givesValue root) faithful_start
      (Nat.le_refl _) (ev.wholeTree_givesAlike root) (Store.alike_empty s t) (fun _ _ h => h.elim)
      (carryOut_raises hev) htop he
    refine ⟨t', n, fun m hm => ?_⟩
    have hm : (ev.wholeTree root).run (ev.carryOutFreely .byName m) t = .error e t' := hn m hm
    simp only [memberFreely, hm, Outcome.bind]
  | exhausted =>
    rw [htop] at hrun
    cases hrun

/-- Where sharing finds a cycle or reaches a limit, evaluation by name is given up. -/
theorem evaluateMember_stuck {n fuel : Nat}
    (hstuck : ev.Stuck n fuel 0 (ev.evaluateMember fuel root name s)) (t : Store) :
    ev.memberFreely .byName n root name t = .exhausted := by
  have hrefines : ev.RefinesByName s.cells.size (ev.carryOut fuel 0) :=
    ev.carryOut_refinesByName hev fuel 0
  have hwhole (h : ev.Stuck n fuel 0 (ev.evaluateTopLevel fuel root s)) :
      ev.memberFreely .byName n root name t = .exhausted := by
    have hgiven := hrefines.run_stuck hs (ev.wholeTree_givesValue root) faithful_start
      (Nat.le_refl _) (ev.wholeTree_givesAlike root) (Store.alike_empty s t) (fun _ _ h => h.elim)
      (carryOut_stuck hev) h blocked_start
    rw [memberFreely, hgiven]
    rfl
  rw [evaluateMember] at hstuck
  cases htop : ev.evaluateTopLevel fuel root s with
  | value r s' =>
    rw [htop] at hstuck
    obtain ⟨hs', hgrows, hr, hfaithful, hby⟩ := topLevel_value hev root hs htop t
    obtain ⟨W, t', r', -, hfrom, hW, hrr, hgiven⟩ := hby s' (.refl _ s')
    refine (memberFreely_tracks root name hgiven).exhausted ?_
    have hgiven' := hrefines.run_stuck hs'
      (Program.memberOf_givesValue hr name root.location) hfaithful hgrows.covers.cells
      (Program.memberOf_givesAlike (hrr.upto hr) name root.location) hW hfrom
      (carryOut_stuck hev) hstuck.of_through (blocked_start.later hgrows)
    rw [hgiven']
    rfl
  | error e s' =>
    rw [htop] at hstuck
    exact hwhole (htop ▸ hstuck)
  | exhausted =>
    rw [htop] at hstuck
    exact hwhole (htop ▸ hstuck)

/-- If evaluation by name ends, sharing within wide enough limits ends the same way. -/
theorem evaluateMember_of_byName {n : Nat} {o : Outcome Value}
    (hby : ev.memberFreely .byName n root name s = o) (ho : o ≠ .exhausted) {fuel : Nat}
    (hdepth : n ≤ ev.maxDepth) (hfuel : n ≤ fuel) :
    (∃ v u w t, ev.evaluateMember fuel root name s = .value v u ∧ o = .value w t ∧ v.Same w) ∨
      ∃ e u t, ev.evaluateMember fuel root name s = .error e u ∧ o = .error e t := by
  have hends : Eventually (fun n => ev.memberFreely .byName n root name s) o := by
    refine ⟨n, fun m hm => ?_⟩
    have hle := ev.memberFreely_monotone root name .byName hm s
    rw [hby] at hle
    exact (hle.resolve_left ho).symm
  have hfree : ¬ ev.Stuck n fuel 0 (ev.evaluateMember fuel root name s) := fun hstuck =>
    ho (hby.symm.trans (evaluateMember_stuck hev root name hs hstuck s))
  cases hrun : ev.evaluateMember fuel root name s with
  | value v u =>
    obtain ⟨w, t, hvw, hgiven⟩ := evaluateMember_value hev root name hs hrun s
    exact .inl ⟨v, u, w, t, rfl, hends.unique hgiven, hvw⟩
  | error e u =>
    rw [hrun] at hfree
    have he : e.IsRaised := by
      by_contra he
      exact hfree (stuck_of_not_raised he (by omega))
    obtain ⟨t, hgiven⟩ := evaluateMember_raises hev root name hs hrun he s
    exact .inr ⟨e, u, t, rfl, hends.unique hgiven⟩
  | exhausted =>
    rw [hrun] at hfree
    exact (hfree hfuel).elim

omit hs

/-- Evaluating a member with sharing refines evaluating it by name. If evaluation by name ends,
    sharing ends the same way as long as its limits are wide enough; what sharing gives is what
    evaluation by name gives; and a cycle is only reported if evaluation by name does not end. -/
theorem evaluateMember_refines_byName (hs : Session ev.registry s) :
    (∀ n maxDepth fuel, n ≤ maxDepth → n ≤ fuel →
      (∀ w t, ev.memberFreely .byName n root name s = .value w t →
        ∃ v u, ({ ev with maxDepth } : Evaluator).evaluateMember fuel root name s = .value v u ∧
          v.Same w) ∧
      ∀ e t, ev.memberFreely .byName n root name s = .error e t →
        ∃ u, ({ ev with maxDepth } : Evaluator).evaluateMember fuel root name s = .error e u) ∧
    (∀ fuel v u, ev.evaluateMember fuel root name s = .value v u →
      ∃ n w t, ev.memberFreely .byName n root name s = .value w t ∧ v.Same w) ∧
    ∀ fuel e u path, ev.evaluateMember fuel root name s = .error e u →
      e.cause = .cyclicEvaluation path →
        ∀ n, ev.memberFreely .byName n root name s = .exhausted := by
  have hwf := hs.wellFormed (Registry.sound_of_types_eq_nil hev)
  refine ⟨fun n maxDepth fuel hdepth hfuel => ?_, fun fuel v u hrun => ?_, ?_⟩
  · have hsame : ({ ev with maxDepth } : Evaluator).memberFreely .byName n root name s =
        ev.memberFreely .byName n root name s := by
      simp only [memberFreely, carryOutFreely_maxDepth]
      rfl
    have hlimits : ({ ev with maxDepth } : Evaluator).registry.types = [] := hev
    have hrefines {o : Outcome Value} (hby : ev.memberFreely .byName n root name s = o) :=
      evaluateMember_of_byName hlimits root name hwf (hsame.trans hby)
    refine ⟨fun w t hby => ?_, fun e t hby => ?_⟩
    · obtain ⟨v, u, w', t', hrun, heq, hvw⟩ | ⟨e, u, t', -, heq⟩ :=
        hrefines hby (by rintro ⟨⟩) hdepth hfuel
      · cases heq
        exact ⟨v, u, hrun, hvw⟩
      · cases heq
    · obtain ⟨v, u, w', t', -, heq, -⟩ | ⟨e, u, t', hrun, heq⟩ :=
        hrefines hby (by rintro ⟨⟩) hdepth hfuel
      · cases heq
      · cases heq
        exact ⟨u, hrun⟩
  · obtain ⟨w, t, hvw, n, hn⟩ := evaluateMember_value hev root name hwf hrun s
    exact ⟨n, w, t, hn n (Nat.le_refl n), hvw⟩
  · intro fuel e u path hrun hcause n
    have hstuck : ev.Stuck n fuel 0 (ev.evaluateMember fuel root name s) := by
      rw [hrun]
      simp only [Stuck, hcause]
    exact evaluateMember_stuck hev root name hwf hstuck s

omit hev

/-- A tree whose only member is defined as itself. -/
def itselfExpr : Expr :=
  .ofMembers [.ofName "a" (.ofName "a")]

/-- A member that is defined as itself is found to be cyclic, so it is computed for ever by name. -/
theorem evaluateMember_refines_byName_itself :
    Session {} {} ∧ ∀ n, ({ registry := {} } : Evaluator).memberFreely .byName n itselfExpr "a" {} =
      .exhausted := by
  have hfails : (({ registry := {} } : Evaluator).evaluateMember 10 itselfExpr "a" {}).error?.map
      (·.1.cause) = some (.cyclicEvaluation "$.a") := by
    decide +kernel
  obtain ⟨⟨e, u⟩, herror, hcause⟩ := Option.map_eq_some_iff.1 hfails
  exact ⟨.start, (evaluateMember_refines_byName rfl itselfExpr "a" .start).2.2 10 e u "$.a"
    (Outcome.error?_eq_some herror) hcause⟩

end Evaluator

end NetDesc
