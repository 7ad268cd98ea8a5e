import NetDesc.Proofs.Paths.Evaluator
import NetDesc.Proofs.Sharing.Owners
import NetDesc.Proofs.Sharing.Termination

namespace NetDesc

variable {α β γ δ : Type}

namespace Outcome

/-- The run did not get to its end: it was given up, or some expression was nested too deep. -/
def CutOff : Outcome α → Prop
  | value .. => False
  | error e _ => e.code = .recursionLimit
  | exhausted => True

/-- The second run ends like the first one, unless that was cut off. A call ends so where
    expressions may be nested deeper or there is more fuel. -/
inductive Below (R : α → β → Prop) : Outcome α → Outcome β → Prop
  | value {a : α} {b : β} (h : R a b) {s t : Store} (hst : s.Agrees t) :
      Below R (.value a s) (.value b t)
  | error {e e' : EvalError} (h : e.code = e'.code) (s t : Store) :
      Below R (.error e s) (.error e' t)
  | cutOff {o : Outcome α} (h : o.CutOff) (o' : Outcome β) : Below R o o'

/-- Both runs end, and in the same way: with results that are related, in stores that agree, or with
    errors of the same kind. -/
inductive Concurs (R : α → β → Prop) : Outcome α → Outcome β → Prop
  | value {a : α} {b : β} (h : R a b) {s t : Store} (hst : s.Agrees t) :
      Concurs R (.value a s) (.value b t)
  | error {e e' : EvalError} (h : e.code = e'.code) (s t : Store) :
      Concurs R (.error e s) (.error e' t)

variable {R : α → β → Prop} {Q : γ → δ → Prop} {o : Outcome α} {o' : Outcome β}

theorem cutOff_bind {f : α → Store → Outcome γ} (h : o.CutOff) : (o.bind f).CutOff := by
  cases o with
  | value a s => exact h.elim
  | error e s => exact h
  | exhausted => trivial

theorem cutOff_through {location : Location} : (o.through location).CutOff ↔ o.CutOff := by
  cases o with
  | value a s => rfl
  | error e s => simp only [Outcome.through, CutOff, EvalError.code, EvalError.through_cause]
  | exhausted => rfl

namespace Below

theorem imp {R' : α → β → Prop} (h : o.Below R o') (hR : ∀ a b, R a b → R' a b) :
    o.Below R' o' := by
  cases h with
  | value h hst => exact .value (hR _ _ h) hst
  | error h s t => exact .error h s t
  | cutOff h o' => exact .cutOff h o'

theorem bind {f : α → Store → Outcome γ} {g : β → Store → Outcome δ} (h : o.Below R o')
    (hfg : ∀ a b s t, R a b → s.Agrees t → (f a s).Below Q (g b t)) :
    (o.bind f).Below Q (o'.bind g) := by
  cases h with
  | value h hst => exact hfg _ _ _ _ h hst
  | error h s t => exact .error h s t
  | cutOff h o' => exact .cutOff (cutOff_bind h) _

theorem through (h : o.Below R o') (location location' : Location) :
    (o.through location).Below R (o'.through location') := by
  cases h with
  | value h hst => exact .value h hst
  | error h s t =>
    refine .error ?_ s t
    simpa only [EvalError.code, EvalError.through_cause] using h
  | cutOff h o' => exact .cutOff (cutOff_through.2 h) _

theorem settle {o o' : Outcome Value} (h : o.Below Value.Agrees o') (cell : CellId) :
    (Evaluator.settle cell o).Below Value.Agrees (Evaluator.settle cell o') := by
  cases h with
  | value h hst => exact .value h (hst.setProgress cell (.finished h))
  | error h s t => exact .error h _ _
  | cutOff h o' =>
    refine .cutOff ?_ _
    cases o with
    | value v s => exact h.elim
    | error e s => exact h
    | exhausted => trivial

theorem cutOff_of_cutOff (h : o.Below R o') (ho' : o'.CutOff) : o.CutOff := by
  cases h with
  | value => exact ho'
  | error h => exact h.trans ho'
  | cutOff h => exact h

theorem concurs (h : o.Below R o') (ho : ¬o.CutOff) : o.Concurs R o' := by
  cases h with
  | value h hst => exact .value h hst
  | error h s t => exact .error h s t
  | cutOff h => exact absurd h ho

end Below

/-- Runs that end and are both cut off come to expressions that are nested too deep. -/
theorem CutOff.concurs (ho : o.CutOff) (ho' : o'.CutOff) (hends : o ≠ .exhausted)
    (hends' : o' ≠ .exhausted) : o.Concurs R o' := by
  cases o with
  | value a s => exact ho.elim
  | error e s =>
    cases o' with
    | value b t => exact ho'.elim
    | error e' t => exact .error (Eq.trans ho (Eq.symm ho')) s t
    | exhausted => exact absurd rfl hends'
  | exhausted => exact absurd rfl hends

namespace Concurs

theorem symm (h : o.Concurs R o') : o'.Concurs (fun b a => R a b) o := by
  cases h with
  | value h hst => exact .value (R := fun b a => R a b) h hst.symm
  | error h s t => exact .error (Eq.symm h) t s

theorem trans {S : β → γ → Prop} {T : α → γ → Prop} {o'' : Outcome γ} (h : o.Concurs R o')
    (h' : o'.Concurs S o'') (hT : ∀ a b c, R a b → S b c → T a c) : o.Concurs T o'' := by
  cases h with
  | value h hst =>
    cases h' with
    | value h' htu => exact .value (hT _ _ _ h h') (hst.trans htu)
  | error h s t =>
    cases h' with
    | error h' _ u => exact .error (h.trans h') s u

end Concurs

end Outcome

namespace Program

/-- Calls that agree, on stores that agree, end like the first one unless that is cut off. -/
structure Simulates (carryOut carryOut' : (c : Call) → Store → Outcome c.Reply) : Prop where
  perform : ∀ {k l : Task} {s t : Store}, k.Agrees l → s.Agrees t →
    (carryOut (.perform k) s).Below Value.Agrees (carryOut' (.perform l) t)
  force : ∀ (c : CellId) {s t : Store}, s.Agrees t →
    (carryOut (.force c) s).Below Value.Agrees (carryOut' (.force c) t)

namespace Agrees

variable {Q : α → α → Prop} {p q : Program α}

theorem run {carryOut carryOut' : (c : Call) → Store → Outcome c.Reply}
    (hcalls : Simulates carryOut carryOut') (hpq : p.Agrees Q q) {s t : Store}
    (hst : s.Agrees t) : (p.run carryOut s).Below Q (q.run carryOut' t) := by
  induction hpq generalizing s t with
  | done h => exact .value h hst
  | raise h => exact .error h s t
  | access hstore _ ih => exact ih s t hst (hstore s t hst)
  | perform h _ ih =>
    rw [run_call_bind, run_call_bind]
    exact (hcalls.perform h hst).bind fun v w _ _ hvw hst => ih v w hvw hst
  | force c _ ih =>
    rw [run_call_bind, run_call_bind]
    exact (hcalls.force c hst).bind fun v w _ _ hvw hst => ih v w hvw hst

/-- A program that agrees with some program ends if the calls for computations and cells do. -/
theorem run_ends {carryOut : (c : Call) → Store → Outcome c.Reply}
    (hperform : ∀ k s, carryOut (.perform k) s ≠ .exhausted)
    (hforce : ∀ c s, carryOut (.force c) s ≠ .exhausted) (hpq : p.Agrees Q q) (s : Store) :
    p.run carryOut s ≠ .exhausted := by
  induction hpq generalizing s with
  | done h => rintro ⟨⟩
  | raise h => rintro ⟨⟩
  | access hstore _ ih => exact ih s s (.refl s) _
  | @perform k l h next next' _ ih =>
    rw [run_call_bind]
    cases hreply : carryOut (.perform k) s with
    | value v t => exact ih v v (.refl v) t
    | error e t => rintro ⟨⟩
    | exhausted => exact absurd hreply (hperform k s)
  | @force c next next' _ ih =>
    rw [run_call_bind]
    cases hreply : carryOut (.force c) s with
    | value v t => exact ih v v (.refl v) t
    | error e t => rintro ⟨⟩
    | exhausted => exact absurd hreply (hforce c s)

end Agrees

end Program

namespace Evaluator

variable {ev : Evaluator}

/-- The evaluator with another limit on how deep expressions may be nested. -/
def withDepth (ev : Evaluator) (maxDepth : Nat) : Evaluator :=
  { ev with maxDepth }

/-- What an expression means does not depend on the limit. -/
theorem taskProgram_withDepth (ev : Evaluator) (maxDepth : Nat) (task : Task) :
    (ev.withDepth maxDepth).taskProgram task = ev.taskProgram task := by
  cases task with
  | evaluate e scope path =>
    obtain ⟨kind, location⟩ := e
    cases kind <;> rfl
  | _ => rfl

/-- With as much room below the limit and as much fuel, a call ends as one that agrees with it,
    unless that is cut off. -/
theorem simulates (hev : ev.registry.types = []) {limit limit' fuel fuel' depth depth' : Nat}
    (hfuel : fuel ≤ fuel') (hroom : limit + depth' ≤ limit' + depth) :
    Program.Simulates ((ev.withDepth limit).carryOut fuel depth)
      ((ev.withDepth limit').carryOut fuel' depth') := by
  have hexhausted : (Outcome.exhausted : Outcome Value).CutOff := trivial
  induction fuel generalizing fuel' depth depth' with
  | zero =>
    constructor
    · intro k l s t _ _
      rw [carryOut_zero]
      exact .cutOff hexhausted _
    · intro c s t _
      rw [carryOut_zero]
      exact .cutOff hexhausted _
  | succ fuel ih =>
    obtain ⟨fuel', rfl⟩ := Nat.exists_eq_add_of_le' (Nat.lt_of_lt_of_le (Nat.succ_pos fuel) hfuel)
    have hfuel : fuel ≤ fuel' := Nat.le_of_succ_le_succ hfuel
    have hrun {k l : Task} (hkl : k.Agrees l) {depth depth' : Nat}
        (hroom : limit + depth' ≤ limit' + depth) {s t : Store} (hst : s.Agrees t) :
        (((ev.withDepth limit).taskProgram k).run ((ev.withDepth limit).carryOut fuel depth)
          s).Below Value.Agrees
            (((ev.withDepth limit').taskProgram l).run
              ((ev.withDepth limit').carryOut fuel' depth') t) := by
      rw [taskProgram_withDepth, taskProgram_withDepth]
      exact (taskProgram_agrees hev hkl).run (ih hfuel hroom) hst
    constructor
    · intro k l s t hkl hst
      have hrun {depth depth' : Nat} (hroom : limit + depth' ≤ limit' + depth) :=
        hrun hkl hroom hst
      cases hkl with
      | evaluate e scope path path' =>
        rcases Nat.lt_or_ge depth limit with hdepth | hdepth
        · rw [carryOut_evaluate (ev.withDepth limit) fuel s hdepth,
            carryOut_evaluate (ev.withDepth limit') fuel' t (show depth' < limit' by omega)]
          exact (hrun (by omega)).through e.location e.location
        · rw [carryOut_evaluate_deep (ev.withDepth limit) fuel s hdepth]
          have hdeep : (Outcome.error ((ev.withDepth limit).tooDeep e.location) s :
              Outcome Value).CutOff := rfl
          exact .cutOff hdeep _
      | element hf hv path path' location => exact (hrun hroom).through location location
      | constant h => exact .value h hst
    · intro c s t hst
      have hcell := hst.cell c
      have hprogress := hcell.progress
      generalize hs : (s.cell c).progress = p at hprogress
      generalize ht : (t.cell c).progress = q at hprogress
      cases hprogress with
      | finished hvw =>
        rw [carryOut_force_finished _ fuel depth hs, carryOut_force_finished _ fuel' depth' ht]
        exact .value hvw hst
      | running =>
        rw [carryOut_force_running _ fuel depth hs, carryOut_force_running _ fuel' depth' ht]
        have hcode : (s.cell c).cyclic.code = (t.cell c).cyclic.code := rfl
        exact .error hcode s t
      | pending =>
        rw [carryOut_force_pending _ fuel depth hs, carryOut_force_pending _ fuel' depth' ht]
        exact ((ih hfuel hroom).perform hcell.task (hst.setProgress c .running)).settle c

/-- A call for a computation or a cell ends without runtime types, whatever the store holds. -/
theorem computation_ends (hev : ev.registry.types = []) (fuel depth : Nat) :
    (∀ k s, ev.enoughFuel depth (.perform k) ≤ fuel →
      ev.carryOut fuel depth (.perform k) s ≠ .exhausted) ∧
    (∀ c s, ev.enoughFuel depth (.force c) ≤ fuel →
      ev.carryOut fuel depth (.force c) s ≠ .exhausted) := by
  induction fuel generalizing depth with
  | zero =>
    exact ⟨fun k s h => absurd (ev.enoughFuel_pos depth (.perform k)) (Nat.not_lt.2 h),
      fun c s h => absurd (ev.enoughFuel_pos depth (.force c)) (Nat.not_lt.2 h)⟩
  | succ fuel ih =>
    constructor
    · intro k s hfuel hgiven
      cases k with
      | evaluate e scope path =>
        rcases Nat.lt_or_ge depth ev.maxDepth with hdepth | hdepth
        · have hlevel (c : Call) : ev.enoughFuel (depth + 1) c ≤ fuel := by
            have hle := ev.enoughFuel_le (depth + 1) c
            simp only [enoughFuel] at hfuel
            omega
          rw [carryOut_evaluate ev fuel s hdepth] at hgiven
          exact (taskProgram_agrees hev (.refl (.evaluate e scope path))).run_ends
            (fun k s => (ih (depth + 1)).1 k s (hlevel _))
            (fun c s => (ih (depth + 1)).2 c s (hlevel _)) s (Outcome.through_eq_exhausted hgiven)
        · rw [carryOut_evaluate_deep ev fuel s hdepth] at hgiven
          cases hgiven
      | element f v path location =>
        rw [carryOut_element] at hgiven
        obtain ⟨c, next, t, hcall, hlost⟩ :=
          Program.reaches_of_run_exhausted (Outcome.through_eq_exhausted hgiven)
        obtain ⟨e, scope, path, rfl⟩ := (f.apply_calls [v] [] path location).reaches hcall
        exact (ih depth).1 (.evaluate e scope path) t (Nat.le_of_succ_le_succ hfuel) hlost
      | constant v =>
        rw [carryOut_constant] at hgiven
        cases hgiven
    · intro c s hfuel hgiven
      cases hprogress : (s.cell c).progress with
      | finished v =>
        rw [carryOut_force_finished ev fuel depth hprogress] at hgiven
        cases hgiven
      | running =>
        rw [carryOut_force_running ev fuel depth hprogress] at hgiven
        cases hgiven
      | pending =>
        have htask := ev.enoughFuel_perform depth (s.cell c).task
        rw [carryOut_force_pending ev fuel depth hprogress] at hgiven
        simp only [enoughFuel] at hfuel
        exact (ih depth).1 _ _ (by omega) (settle_eq_exhausted hgiven)

/-- A program that agrees with some program ends. -/
theorem run_ends (hev : ev.registry.types = []) {Q : α → α → Prop} {p q : Program α}
    (hpq : p.Agrees Q q) {fuel depth : Nat} (hfuel : 3 * (ev.maxDepth - depth) + 3 ≤ fuel)
    (s : Store) : p.run (ev.carryOut fuel depth) s ≠ .exhausted := by
  have hcalls := computation_ends hev fuel depth
  have henough (c : Call) : ev.enoughFuel depth c ≤ fuel :=
    Nat.le_trans (ev.enoughFuel_le depth c) hfuel
  exact hpq.run_ends (fun k s => hcalls.1 k s (henough _)) (fun c s => hcalls.2 c s (henough _)) s

/-- A program to which paths do not matter ends in the same way on stores that agree. -/
theorem run_concurs (hev : ev.registry.types = []) {p : Program Value} (hp : p.AgreesOnValue p)
    {limit fuel depth : Nat} (hfuel : 3 * (limit - depth) + 3 ≤ fuel) {s t : Store}
    (hst : s.Agrees t) :
    (p.run ((ev.withDepth limit).carryOut fuel depth) s).Concurs Value.Agrees
      (p.run ((ev.withDepth limit).carryOut fuel depth) t) := by
  have hcalls : Program.Simulates ((ev.withDepth limit).carryOut fuel depth)
      ((ev.withDepth limit).carryOut fuel depth) :=
    simulates hev (Nat.le_refl fuel) (Nat.le_refl _)
  have hlimited : (ev.withDepth limit).registry.types = [] := hev
  have hends (s : Store) : p.run ((ev.withDepth limit).carryOut fuel depth) s ≠ .exhausted :=
    run_ends hlimited hp hfuel s
  by_cases hcut : (p.run ((ev.withDepth limit).carryOut fuel depth) s).CutOff
  · exact hcut.concurs ((hp.run hcalls hst.symm).cutOff_of_cutOff hcut) (hends s) (hends t)
  · exact (hp.run hcalls hst).concurs hcut

/-- A cell that has been accessed is finished. -/
theorem force_finishes {fuel depth : Nat} {c : CellId} {s t : Store} {v : Value}
    (h : ev.carryOut fuel depth (.force c) s = .value v t) : (t.cell c).progress = .finished v := by
  cases fuel with
  | zero =>
    rw [carryOut_zero] at h
    cases h
  | succ fuel =>
    cases hprogress : (s.cell c).progress with
    | finished w =>
      rw [carryOut_force_finished ev fuel depth hprogress] at h
      cases h
      exact hprogress
    | running =>
      rw [carryOut_force_running ev fuel depth hprogress] at h
      cases h
    | pending =>
      have hc : c < s.cells.size := by
        by_contra hc
        rw [Store.cell, Array.getD_eq_getD_getElem?, Array.getElem?_eq_none (Nat.not_lt.1 hc)]
          at hprogress
        cases hprogress
      rw [carryOut_force_pending ev fuel depth hprogress] at h
      cases ho : ev.carryOut fuel depth (.perform (s.cell c).task) (s.setProgress c .running) with
      | value w u =>
        have hu := carryOut_keepsCells fuel depth _ _ u (congrArg Outcome.store? ho)
        rw [Store.setProgress_cells_size] at hu
        rw [ho] at h
        cases h
        rw [Store.setProgress_cell_self (Nat.lt_of_lt_of_le hc hu)]
      | error e u =>
        rw [ho] at h
        cases h
      | exhausted =>
        rw [ho] at h
        cases h

end Evaluator

end NetDesc
