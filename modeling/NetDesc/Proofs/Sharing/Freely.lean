import NetDesc.Proofs.Run.Fuel
import NetDesc.Session

namespace NetDesc

/-- When cells are computed. By need they are computed once and shared, and computing a cell
    while it is being computed fails. By name they have no state: every access computes them
    again. -/
inductive Strategy where
  | byName
  | byNeed

namespace Evaluator

/-- Carries out a call, however deep expressions are nested. -/
def carryOutFreely (ev : Evaluator) (strategy : Strategy) :
    (fuel : Nat) → (c : Call) → Store → Outcome c.Reply
  | 0, _, _ => .exhausted
  | fuel + 1, .perform (.evaluate e scope path), s =>
    let p := ev.taskProgram (.evaluate e scope path)
    (p.run (ev.carryOutFreely strategy fuel) s).through e.location
  | fuel + 1, .perform (.element initializer index path location), s =>
    let p := ev.taskProgram (.element initializer index path location)
    (p.run (ev.carryOutFreely strategy fuel) s).through location
  | _ + 1, .perform (.constant v), s => .value v s
  | fuel + 1, .force cell, s =>
    let c := s.cell cell
    match strategy with
    | .byName => ev.carryOutFreely strategy fuel (.perform c.task) s
    | .byNeed =>
      match c.progress with
      | .finished v => .value v s
      | .running => .error c.cyclic s
      | .pending =>
        settle cell
          (ev.carryOutFreely strategy fuel (.perform c.task) (s.setProgress cell .running))
  | fuel + 1, .render spec v, s => (Render.value spec v).run (ev.carryOutFreely strategy fuel) s
  | fuel + 1, .tie work visited, s =>
    (Network.tieStep work visited).run (ev.carryOutFreely strategy fuel) s

/-- Evaluates a whole tree and gives one of its members, however deep expressions are nested. -/
def memberFreely (ev : Evaluator) (strategy : Strategy) (fuel : Nat) (root : Expr) (name : String)
    (s : Store) : Outcome Value :=
  ((ev.wholeTree root).run (ev.carryOutFreely strategy fuel) s).bind fun v s =>
    ((Program.memberOf v name root.location).run (ev.carryOutFreely strategy fuel) s).through
      root.location

end Evaluator

namespace Evaluator

variable (ev : Evaluator)

section Equations

variable (strategy : Strategy) (fuel : Nat) (s : Store)

theorem carryOutFreely_evaluate (e : Expr) (scope : RecordId) (path : String) :
    (ev.carryOutFreely strategy (fuel + 1) (.perform (.evaluate e scope path)) s : Outcome Value) =
      ((ev.taskProgram (.evaluate e scope path)).run (ev.carryOutFreely strategy fuel) s).through
        e.location := rfl

theorem carryOutFreely_element (initializer : Function) (index : Value) (path : String)
    (location : Location) :
    (ev.carryOutFreely strategy (fuel + 1) (.perform (.element initializer index path location)) s :
        Outcome Value) =
      ((ev.taskProgram (.element initializer index path location)).run
        (ev.carryOutFreely strategy fuel) s).through location := rfl

theorem carryOutFreely_constant (v : Value) :
    (ev.carryOutFreely strategy (fuel + 1) (.perform (.constant v)) s : Outcome Value) =
      .value v s := rfl

theorem carryOutFreely_byName_force (cell : CellId) :
    (ev.carryOutFreely .byName (fuel + 1) (.force cell) s : Outcome Value) =
      ev.carryOutFreely .byName fuel (.perform (s.cell cell).task) s := rfl

variable {s} {cell : CellId}

theorem carryOutFreely_force_finished {v : Value} (h : (s.cell cell).progress = .finished v) :
    (ev.carryOutFreely .byNeed (fuel + 1) (.force cell) s : Outcome Value) = .value v s := by
  simp only [carryOutFreely, h]

theorem carryOutFreely_force_running (h : (s.cell cell).progress = .running) :
    (ev.carryOutFreely .byNeed (fuel + 1) (.force cell) s : Outcome Value) =
      .error (s.cell cell).cyclic s := by
  simp only [carryOutFreely, h]

theorem carryOutFreely_force_pending (h : (s.cell cell).progress = .pending) :
    (ev.carryOutFreely .byNeed (fuel + 1) (.force cell) s : Outcome Value) =
      settle cell (ev.carryOutFreely .byNeed fuel (.perform (s.cell cell).task)
        (s.setProgress cell .running)) := by
  simp only [carryOutFreely, h]
  rfl

end Equations

/-- There is no limit to how deep expressions are nested. -/
theorem carryOutFreely_maxDepth (strategy : Strategy) (maxDepth : Nat) :
    ({ ev with maxDepth } : Evaluator).carryOutFreely strategy = ev.carryOutFreely strategy := by
  funext n
  induction n with
  | zero => rfl
  | succ n ih =>
    funext c s
    cases c with
    | perform task =>
      cases task with
      | constant v => rfl
      | _ =>
        simp only [carryOutFreely, ih]
        rfl
    | force cell => simp only [carryOutFreely, ih]
    | render spec v => simp only [carryOutFreely, ih]
    | tie work visited => simp only [carryOutFreely, ih]

/-- With more fuel a call that is answered is answered the same. -/
theorem carryOutFreely_monotone (strategy : Strategy) :
    Program.Monotone (ev.carryOutFreely strategy) := by
  intro n
  induction n with
  | zero => exact fun m _ c s => Outcome.exhausted_le _
  | succ n ih =>
    intro m hm c s
    obtain ⟨m, rfl⟩ := Nat.exists_eq_add_of_le' (Nat.lt_of_lt_of_le (Nat.succ_pos n) hm)
    have hnm : n ≤ m := Nat.le_of_succ_le_succ hm
    have hrun {α : Type} (x : Program α) (s : Store) :
        x.run (ev.carryOutFreely strategy n) s ≤ x.run (ev.carryOutFreely strategy m) s :=
      Program.run_le (ih m hnm) x s
    cases c with
    | perform task =>
      cases task with
      | evaluate e scope path => exact Outcome.through_le (hrun _ s) e.location
      | element initializer index path location => exact Outcome.through_le (hrun _ s) location
      | constant v => exact Outcome.le_refl _
    | force cell =>
      cases strategy with
      | byName => exact ih m hnm _ s
      | byNeed =>
        cases hprogress : (s.cell cell).progress with
        | finished v =>
          rw [carryOutFreely_force_finished ev n hprogress,
            carryOutFreely_force_finished ev m hprogress]
          exact Outcome.le_refl _
        | running =>
          rw [carryOutFreely_force_running ev n hprogress,
            carryOutFreely_force_running ev m hprogress]
          exact Outcome.le_refl _
        | pending =>
          rw [carryOutFreely_force_pending ev n hprogress,
            carryOutFreely_force_pending ev m hprogress]
          exact Outcome.settle_le (ih m hnm _ _) cell
    | render spec v => exact hrun _ s
    | tie work visited => exact hrun _ s

end Evaluator

end NetDesc
