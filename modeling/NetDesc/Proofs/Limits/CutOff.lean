import NetDesc.Expr.Build
import NetDesc.Proofs.Run.Keeps
import NetDesc.Session

namespace NetDesc

namespace Evaluator

/-- The evaluator with other limits. -/
def withLimits (ev : Evaluator) (maxDepth maxArrayLength : Nat) : Evaluator :=
  { ev with maxDepth, maxArrayLength }

/-- A comprehension has more elements than the evaluator allows. -/
def tooLong (ev : Evaluator) (low high : Int64) : Cause :=
  let size := s!"has {countBetween low high} elements, more than the limit of {ev.maxArrayLength}"
  .invalidArgument s!"array [{low}..{high}] {size}"

/-- A limit of the evaluator has been met: expressions are nested too deep, or a comprehension is
    too long. Errors are passed on by everything that evaluates anything, so a run that does not
    end with one of these two never met a limit. -/
inductive MetLimit (ev : Evaluator) : Cause → Prop
  | depth : ev.MetLimit (.recursionLimit ev.maxDepth)
  | length {low high : Int64} (h : ev.maxArrayLength < (countBetween low high).toInt.toNat) :
    ev.MetLimit (ev.tooLong low high)

end Evaluator

/-- The run did not end with an error of one of these causes. -/
def Outcome.Spared {α : Type} (cut : Cause → Prop) (o : Outcome α) : Prop :=
  ∀ (e : EvalError) (s : Store), o = .error e s → ¬cut e.cause

namespace Outcome

variable {α β : Type} {cut : Cause → Prop} {o : Outcome α}

theorem Spared.of_bind {f : α → Store → Outcome β} (h : (o.bind f).Spared cut) : o.Spared cut := by
  intro e s ho
  subst ho
  exact h e s rfl

theorem Spared.next {f : α → Store → Outcome β} (h : (o.bind f).Spared cut) {a : α} {s : Store}
    (ho : o = .value a s) : (f a s).Spared cut := by
  subst ho
  exact h

theorem Spared.of_through {location : Location} (h : (o.through location).Spared cut) :
    o.Spared cut := by
  intro e s ho hcut
  subst ho
  exact h (e.through location) s rfl (by rwa [EvalError.through_cause])

theorem Spared.of_settle {cell : CellId} {o : Outcome Value}
    (h : (Evaluator.settle cell o).Spared cut) : o.Spared cut := by
  intro e s ho
  subst ho
  exact h e _ rfl

end Outcome

namespace Program

variable {α β : Type} {cut : Cause → Prop}

/-- The same programs, but where the first gives up for one of these causes the second may go on in
    any way. -/
inductive Continues (cut : Cause → Prop) {α : Type} : Program α → Program α → Prop
  | done (result : α) : Continues cut (done result) (done result)
  | raise (e : EvalError) : Continues cut (raise e) (raise e)
  | access {a : Access} {next next' : a.Reply → Program α}
      (h : ∀ reply, Continues cut (next reply) (next' reply)) :
      Continues cut (access a next) (access a next')
  | call {c : Call} {next next' : c.Reply → Program α}
      (h : ∀ reply, Continues cut (next reply) (next' reply)) :
      Continues cut (call c next) (call c next')
  | cutOff {e : EvalError} (h : cut e.cause) (p : Program α) : Continues cut (raise e) p

theorem Continues.refl (p : Program α) : p.Continues cut p := by
  induction p with
  | done result => exact .done result
  | raise e => exact .raise e
  | access a next ih => exact .access ih
  | call c next ih => exact .call ih

/-- Programs that begin the same go on as what follows does. -/
theorem Continues.bind (p : Program α) {f f' : α → Program β}
    (h : ∀ a, (f a).Continues cut (f' a)) : (p >>= f).Continues cut (p >>= f') := by
  change (p.bind f).Continues cut (p.bind f')
  induction p with
  | done result => exact h result
  | raise e => exact .raise e
  | access a next ih => exact .access ih
  | call c next ih => exact .call ih

/-- A run that is not cut off takes the same way with calls that are carried out the same unless
    they are cut off. -/
theorem Continues.run_eq {carryOut carryOut' : (c : Call) → Store → Outcome c.Reply}
    (hcalls : ∀ (c : Call) (s : Store), (carryOut c s).Spared cut → carryOut' c s = carryOut c s)
    {p p' : Program α} (hp : p.Continues cut p') {s : Store}
    (hspared : (p.run carryOut s).Spared cut) : p'.run carryOut' s = p.run carryOut s := by
  induction hp generalizing s with
  | done result => rfl
  | raise e => rfl
  | access _ ih => exact ih _ hspared
  | @call c next next' _ ih =>
    simp only [run_call_bind] at hspared ⊢
    rw [hcalls c s hspared.of_bind]
    cases ho : carryOut c s with
    | value reply t => exact ih reply (hspared.next ho)
    | error e t => rfl
    | exhausted => rfl
  | cutOff h p => exact absurd h (hspared _ s rfl)

end Program

namespace Evaluator

variable {ev : Evaluator} {maxDepth maxArrayLength : Nat}

/-- Only comprehensions look at the limit on their length. -/
theorem evaluateComprehension_continues (hlength : ev.maxArrayLength ≤ maxArrayLength)
    (first last init : Expr) (scope : RecordId) (path : String) (location : Location) :
    (ev.evaluateComprehension first last init scope path location).Continues ev.MetLimit
      ((ev.withLimits maxDepth maxArrayLength).evaluateComprehension first last init scope path
        location) := by
  unfold evaluateComprehension
  refine .bind _ fun low => .bind _ fun low => .bind _ fun high => .bind _ fun high => ?_
  refine .bind _ fun v => .bind _ fun f => ?_
  dsimp only
  split
  · exact .refl _
  · split
    · rename_i h
      exact .cutOff (.length h) _
    · rename_i h
      have h' : ¬(ev.withLimits maxDepth maxArrayLength).maxArrayLength <
          (countBetween low high).toInt.toNat := fun h' => h (Nat.lt_of_le_of_lt hlength h')
      rw [if_neg h']
      exact .refl _

theorem evaluateKind_continues (hlength : ev.maxArrayLength ≤ maxArrayLength) (kind : ExprKind)
    (location : Location) (scope : RecordId) (path : String) :
    (ev.evaluateKind kind location scope path).Continues ev.MetLimit
      ((ev.withLimits maxDepth maxArrayLength).evaluateKind kind location scope path) := by
  cases kind with
  | comprehension first last init =>
    exact evaluateComprehension_continues hlength first last init scope path location
  | _ => exact .refl _

/-- A call that does not meet a limit is carried out the same with higher limits. -/
theorem carryOut_withLimits (hdepth : ev.maxDepth ≤ maxDepth)
    (hlength : ev.maxArrayLength ≤ maxArrayLength) (fuel depth : Nat) (c : Call) (s : Store)
    (hspared : (ev.carryOut fuel depth c s).Spared ev.MetLimit) :
    (ev.withLimits maxDepth maxArrayLength).carryOut fuel depth c s =
      ev.carryOut fuel depth c s := by
  induction fuel generalizing depth c s with
  | zero => rfl
  | succ fuel ih =>
    have hrun {α : Type} {depth : Nat} {p p' : Program α} (hp : p.Continues ev.MetLimit p')
        {s : Store} (hspared : (p.run (ev.carryOut fuel depth) s).Spared ev.MetLimit) :
        p'.run ((ev.withLimits maxDepth maxArrayLength).carryOut fuel depth) s =
          p.run (ev.carryOut fuel depth) s :=
      hp.run_eq (fun c s => ih depth c s) hspared
    cases c with
    | perform task =>
      cases task with
      | evaluate e scope path =>
        by_cases hlt : depth < ev.maxDepth
        · rw [carryOut_evaluate ev fuel s hlt] at hspared ⊢
          rw [carryOut_evaluate _ fuel s (Nat.lt_of_lt_of_le hlt hdepth)]
          rw [hrun (evaluateKind_continues hlength _ _ _ _) hspared.of_through]
        · rw [carryOut_evaluate_deep ev fuel s (Nat.le_of_not_lt hlt)] at hspared
          exact absurd .depth (hspared _ s rfl)
      | element initializer index path location =>
        rw [carryOut_element] at hspared
        exact congrArg (·.through location) (hrun (.refl _) hspared.of_through)
      | constant v => rfl
    | force cell =>
      cases hprogress : (s.cell cell).progress with
      | finished v => simp only [carryOut_force_finished _ fuel depth hprogress]
      | running => simp only [carryOut_force_running _ fuel depth hprogress]
      | pending =>
        rw [carryOut_force_pending _ fuel depth hprogress] at hspared ⊢
        rw [carryOut_force_pending _ fuel depth hprogress, ih _ _ _ hspared.of_settle]
    | render spec v => exact hrun (.refl _) hspared
    | tie work visited => exact hrun (.refl _) hspared

/-- Limits only cut off: evaluating a member of a tree ends the same with higher limits, with the
    same value or error in the same store, unless it meets one of the lower ones. -/
theorem evaluateMember_withLimits (hdepth : ev.maxDepth ≤ maxDepth)
    (hlength : ev.maxArrayLength ≤ maxArrayLength) (fuel : Nat) (root : Expr) (name : String)
    (s : Store) (hspared : (ev.evaluateMember fuel root name s).Spared ev.MetLimit) :
    (ev.withLimits maxDepth maxArrayLength).evaluateMember fuel root name s =
      ev.evaluateMember fuel root name s := by
  have hrun {α : Type} (p : Program α) (s : Store) (h : (ev.run fuel p s).Spared ev.MetLimit) :
      (ev.withLimits maxDepth maxArrayLength).run fuel p s = ev.run fuel p s :=
    (Program.Continues.refl p).run_eq (carryOut_withLimits hdepth hlength fuel 0) h
  have htop : (ev.withLimits maxDepth maxArrayLength).evaluateTopLevel fuel root s =
      ev.evaluateTopLevel fuel root s := hrun (ev.wholeTree root) s hspared.of_bind
  unfold evaluateMember at hspared ⊢
  rw [htop]
  cases ho : ev.evaluateTopLevel fuel root s with
  | value v t =>
    have hmember := hrun (Program.memberOf v name root.location) t (hspared.next ho).of_through
    simp only [Outcome.bind, hmember]
  | error e t => rfl
  | exhausted => rfl

/-- A member that stands for another one, which is one of two texts. -/
def relayExpr : Expr :=
  let choice := .ifThenElse (.ofTruth true) (.ofText "a") (.ofText "b")
  .ofMembers [.ofName "x" (.ofName "y"), .ofName "y" choice]

/-- Three levels are just enough for a name, what it stands for, and the condition of that. -/
theorem evaluateMember_withLimits_relay :
    ((({} : Evaluator).withLimits 3 0).evaluateMember 20 relayExpr "x" {}).Spared
        (({} : Evaluator).withLimits 3 0).MetLimit ∧
      ((({} : Evaluator).withLimits 3 0).withLimits 1024 (Nat.pow 2 20)).evaluateMember 20
          relayExpr "x" {} =
        (({} : Evaluator).withLimits 3 0).evaluateMember 20 relayExpr "x" {} := by
  have hspared : ((({} : Evaluator).withLimits 3 0).evaluateMember 20 relayExpr "x" {}).Spared
      (({} : Evaluator).withLimits 3 0).MetLimit := by
    intro e s ho
    have hnone : ((({} : Evaluator).withLimits 3 0).evaluateMember 20 relayExpr "x"
        {}).error?.isNone := by
      decide +kernel
    rw [ho] at hnone
    cases hnone
  exact ⟨hspared, evaluateMember_withLimits (by decide) (by decide) 20 relayExpr "x" {} hspared⟩

end Evaluator

end NetDesc
