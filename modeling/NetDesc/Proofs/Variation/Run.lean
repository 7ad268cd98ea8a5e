import NetDesc.Proofs.Cells.History
import NetDesc.Proofs.Variation.Standard

namespace NetDesc

/-- An expression at this location is to be evaluated: that begins, or is refused since expressions
    are nested too deep. -/
def Event.Evaluates (location : Location) : Event → Prop
  | entered l => l = location
  | raised e => e.location = location ∧ e.code = .recursionLimit
  | _ => False

instance (location : Location) : DecidablePred (Event.Evaluates location)
  | .entered l => inferInstanceAs (Decidable (l = location))
  | .raised e => inferInstanceAs (Decidable (e.location = location ∧ e.code = .recursionLimit))
  | .made .. | .started _ | .finished _ | .failed _ | .reused _ | .refused _ | .printed _ | .left =>
    isFalse fun h => h

namespace Variation

variable (V : Variation)

/-- No idle expression is to be evaluated. -/
def Quiet (events : List Event) : Prop :=
  ∀ event ∈ events, ∀ location, V.idle location → ¬event.Evaluates location

variable {V} {events more : List Event}

theorem quiet_append : V.Quiet (events ++ more) ↔ V.Quiet events ∧ V.Quiet more :=
  List.forall_mem_append

theorem Quiet.of_cons {event : Event} (h : V.Quiet (event :: events)) : V.Quiet events :=
  fun e he => h e (List.mem_cons_of_mem event he)

/-- What is entered in a quiet history is not idle. -/
theorem Quiet.awake {event : Event} {location : Location} (h : V.Quiet events)
    (hmem : event ∈ events) (hevaluates : event.Evaluates location) : ¬V.idle location :=
  fun hidle => h event hmem location hidle hevaluates

end Variation

variable {V : Variation} {α β γ δ : Type}

/-- The runs end in the same way, in stores that vary. -/
inductive Outcome.Varies (V : Variation) (Q : α → β → Prop) : Outcome α → Outcome β → Prop
  | value {a : α} {b : β} (h : Q a b) {s t : Store} (hst : s.Varies V t) :
      Varies V Q (.value a s) (.value b t)
  | error {e e' : EvalError} (h : V.error e e') {s t : Store} (hst : s.Varies V t) :
      Varies V Q (.error e s) (.error e' t)
  | exhausted : Varies V Q .exhausted .exhausted

namespace Outcome.Varies

variable {Q : α → β → Prop} {o : Outcome α} {o' : Outcome β}

theorem imp {Q' : α → β → Prop} (h : o.Varies V Q o') (hQ : ∀ a b, Q a b → Q' a b) :
    o.Varies V Q' o' := by
  cases h with
  | value h hst => exact .value (hQ _ _ h) hst
  | error h hst => exact .error h hst
  | exhausted => exact .exhausted

theorem through (h : o.Varies V Q o') {l l' : Location} (hl : V.location l l') :
    (o.through l).Varies V Q (o'.through l') := by
  cases h with
  | value h hst => exact .value h hst
  | error h hst => exact .error (V.through h hl) hst
  | exhausted => exact .exhausted

theorem bind {R : γ → δ → Prop} {k : α → Store → Outcome γ} {l : β → Store → Outcome δ}
    (h : o.Varies V Q o') (hkl : ∀ {a b s t}, o = .value a s → Q a b → s.Varies V t →
      (k a s).Varies V R (l b t)) : (o.bind k).Varies V R (o'.bind l) := by
  cases h with
  | value h hst => exact hkl rfl h hst
  | error h hst => exact .error h hst
  | exhausted => exact .exhausted

theorem settle {o o' : Outcome Value} (h : o.Varies V (Value.Varies V) o') (cell : CellId) :
    (Evaluator.settle cell o).Varies V (Value.Varies V) (Evaluator.settle cell o') := by
  cases h with
  | value h hst => exact .value h (hst.setProgress cell (.finished h) nofun)
  | error h hst => exact .error h (hst.setProgress cell .pending nofun)
  | exhausted => exact .exhausted

end Outcome.Varies

/-- Programs that vary have runs that vary if the calls they make do. -/
theorem Program.Varies.run {Q : α → β → Prop} {p : Program α} {q : Program β}
    {carryOut : (c : Call) → Store → Outcome c.Reply} {inside : Call → Store → List Event}
    (hcalls : ∀ {c c' s t}, c.Varies V c' → s.Varies V t → V.Quiet (inside c s) →
      (carryOut c s).Varies V (c.RepliesVary V c') (carryOut c' t))
    (hpq : p.Varies V Q q) {s t : Store} (hst : s.Varies V t)
    (hquiet : V.Quiet (p.history carryOut inside s)) :
    (p.run carryOut s).Varies V Q (q.run carryOut t) := by
  induction hpq generalizing s t with
  | done h => exact .value h hst
  | raise cause h => exact .error (V.raised cause h) hst
  | access hstore _ ih =>
    exact ih s t hst (hstore s t hst) (Variation.quiet_append.1 hquiet).2
  | call hc _ ih =>
    rw [history] at hquiet
    obtain ⟨hinside, hrest⟩ := Variation.quiet_append.1 hquiet
    rw [run_call_bind, run_call_bind]
    refine (hcalls hc hst hinside).bind fun hvalue hreply hu => ih _ _ hreply hu ?_
    rw [hvalue] at hrest
    exact hrest

namespace Evaluator

variable {ev : Evaluator}

/-- To carry out an idle computation is to evaluate an idle expression. -/
theorem not_idle_of_quiet {fuel depth : Nat} {task : Task} {s : Store}
    (hquiet : V.Quiet (ev.history (fuel + 1) depth (.perform task) s)) : ¬task.Idle V := by
  cases task with
  | evaluate e scope path =>
    rcases Nat.lt_or_ge depth ev.maxDepth with hdepth | hdepth
    · rw [history_evaluate ev fuel s hdepth] at hquiet
      exact hquiet.awake (List.mem_cons_self ..) rfl
    · rw [history_evaluate_deep ev fuel s hdepth] at hquiet
      exact hquiet.awake (List.mem_cons_self ..) ⟨rfl, rfl⟩
  | element f index path location => exact fun h => h
  | constant v => exact fun h => h

variable (hev : ev.registry.Varies V)

include hev

/-- A call that evaluates nothing idle is carried out in the same way as any that varies with
    it. -/
theorem carryOut_varies (fuel depth : Nat) {c c' : Call} (hc : c.Varies V c') {s t : Store}
    (hst : s.Varies V t) (hquiet : V.Quiet (ev.history fuel depth c s)) :
    (ev.carryOut fuel depth c s).Varies V (c.RepliesVary V c') (ev.carryOut fuel depth c' t) := by
  induction fuel generalizing depth c c' s t with
  | zero =>
    rw [carryOut_zero, carryOut_zero]
    exact .exhausted
  | succ fuel ih =>
    have hcalls (depth : Nat) {c c' : Call} {s t : Store} (hc : c.Varies V c')
        (hst : s.Varies V t) := ih depth hc hst
    cases hc with
    | perform htask =>
      have hawake := not_idle_of_quiet hquiet
      have hprogram := taskProgram_varies hev htask hawake
      cases htask with
      | evaluate he scope path =>
        have hlocation := V.expr_location he hawake
        rcases Nat.lt_or_ge depth ev.maxDepth with hdepth | hdepth
        · rw [history_evaluate ev fuel s hdepth] at hquiet
          rw [carryOut_evaluate ev fuel s hdepth, carryOut_evaluate ev fuel t hdepth]
          have hinside := (Variation.quiet_append.1 hquiet).1.of_cons
          have hrun := hprogram.run (hcalls (depth + 1)) hst hinside
          exact (hrun.through hlocation).imp fun v w hvw => ⟨hawake, hvw⟩
        · rw [carryOut_evaluate_deep ev fuel s hdepth, carryOut_evaluate_deep ev fuel t hdepth]
          exact .error (V.raised _ hlocation) hst
      | element hf hv path hl =>
        rw [history_element] at hquiet
        have hinside := (Variation.quiet_append.1 hquiet).1.of_cons
        have hrun := hprogram.run (hcalls depth) hst hinside
        exact (hrun.through hl).imp fun v w hvw => ⟨hawake, hvw⟩
      | constant h => exact .value ⟨hawake, h⟩ hst
    | force cell =>
      have hcell := hst.cell cell
      have hprogress := hcell.progress
      generalize hs : (s.cell cell).progress = p at hprogress
      generalize ht : (t.cell cell).progress = q at hprogress
      cases hprogress with
      | finished hvw =>
        rw [carryOut_force_finished ev fuel depth hs, carryOut_force_finished ev fuel depth ht]
        exact .value hvw hst
      | running =>
        rw [carryOut_force_running ev fuel depth hs, carryOut_force_running ev fuel depth ht,
          Cell.cyclic, Cell.cyclic, hcell.path]
        exact .error (V.raised _ (hcell.location (.inr hs))) hst
      | pending =>
        rw [history_force_pending ev fuel depth hs] at hquiet
        rw [carryOut_force_pending ev fuel depth hs, carryOut_force_pending ev fuel depth ht]
        have hinside := (Variation.quiet_append.1 hquiet).1.of_cons
        cases fuel with
        | zero =>
          rw [carryOut_zero, carryOut_zero]
          exact .exhausted
        | succ fuel =>
          have hawake := not_idle_of_quiet hinside
          have hbegun := hst.setProgress cell .running fun _ => hawake
          exact ((hcalls depth (.perform hcell.task) hbegun hinside).imp
            fun v w => And.right).settle cell
    | render spec h => exact (Render.value_varies spec h).run (hcalls depth) hst hquiet
    | tie work visited => exact (Network.tieStep_varies work visited).run (hcalls depth) hst hquiet

theorem run_varies {Q : α → β → Prop} {p : Program α} {q : Program β} (hpq : p.Varies V Q q)
    (fuel : Nat) {s t : Store} (hst : s.Varies V t)
    (hquiet : V.Quiet (p.history (ev.carryOut fuel 0) (ev.history fuel 0) s)) :
    (ev.run fuel p s).Varies V Q (ev.run fuel q t) :=
  hpq.run (fun hc hst => carryOut_varies hev fuel 0 hc hst) hst hquiet

omit hev in
theorem wholeTree_varies (ev : Evaluator) {root root' : Expr} (hroot : V.expr root root') :
    (ev.wholeTree root).Varies V (fun v w => ¬V.idle root.location ∧ v.Varies V w)
      (ev.wholeTree root') :=
  .bind_eq (Program.newRecord_varies none) fun scope =>
    Program.evaluate_awake hroot scope ev.rootPath

/-- Trees that vary have members that vary, given that nothing idle is evaluated. The second tree
    may hold anything in the place of idle expressions. -/
theorem evaluateMember_varies {root root' : Expr} (hroot : V.expr root root') (fuel : Nat)
    (name : String) {s t : Store} (hst : s.Varies V t)
    (hquiet : V.Quiet (ev.memberHistory fuel root name s)) :
    (ev.evaluateMember fuel root name s).Varies V (Value.Varies V)
      (ev.evaluateMember fuel root' name t) := by
  obtain ⟨htop, hfetch⟩ := Variation.quiet_append.1 hquiet
  have hresult : (ev.evaluateTopLevel fuel root s).Varies V
      (fun v w => ¬V.idle root.location ∧ v.Varies V w) (ev.evaluateTopLevel fuel root' t) :=
    run_varies hev (ev.wholeTree_varies hroot) fuel hst htop
  refine hresult.bind fun hvalue ⟨hawake, hvw⟩ hu => ?_
  rw [hvalue] at hfetch
  have hlocation := V.expr_location hroot hawake
  have hinside := (Variation.quiet_append.1 hfetch).1.of_cons
  have hmember := Program.memberOf_varies hvw name hlocation
  exact (run_varies hev hmember fuel hu hinside).through hlocation

end Evaluator

end NetDesc
