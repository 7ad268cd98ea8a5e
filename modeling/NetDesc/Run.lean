import NetDesc.Evaluator
import NetDesc.Render

namespace NetDesc

/-- How a run ends: with a result or an error, together with the store as it then is, or it is
    given up when calls are nested deeper than the fuel allows. Fuel is no limit of the language. -/
inductive Outcome (α : Type) where
  | value (result : α) (s : Store)
  | error (e : EvalError) (s : Store)
  | exhausted

namespace Outcome

variable {α β : Type}

/-- Goes on from a result and the store it was reached with. -/
def bind (o : Outcome α) (f : α → Store → Outcome β) : Outcome β :=
  match o with
  | value result s => f result s
  | error e s => error e s
  | exhausted => exhausted

/-- The error, if there is one, has passed through an expression at this location. -/
def through (o : Outcome α) (location : Location) : Outcome α :=
  match o with
  | error e s => error (e.through location) s
  | o => o

end Outcome

/-- Runs a program, given how calls are carried out. -/
def Program.run {α : Type} (carryOut : (c : Call) → Store → Outcome c.Reply) :
    Program α → Store → Outcome α
  | .done result, s => .value result s
  | .raise e, s => .error e s
  | .access a next, s =>
    let (reply, s) := a.perform s
    (next reply).run carryOut s
  | .call c next, s =>
    match carryOut c s with
    | .value reply s => (next reply).run carryOut s
    | .error e s => .error e s
    | .exhausted => .exhausted

namespace Cell

/-- A cell is computed while its own computation is running. -/
def cyclic (c : Cell) : EvalError where
  cause := .cyclicEvaluation (if c.path.isEmpty then "<anonymous>" else c.path)
  location := c.location

end Cell

namespace Evaluator

/-- Expressions are nested deeper than the evaluator's limit. -/
def tooDeep (ev : Evaluator) (location : Location) : EvalError where
  cause := .recursionLimit ev.maxDepth
  location := location

/-- Records in a cell how its computation ended: a failed one may be tried again. -/
def settle (cell : CellId) : Outcome Value → Outcome Value
  | .value v s => .value v (s.setProgress cell (.finished v))
  | .error e s => .error e (s.setProgress cell .pending)
  | .exhausted => .exhausted

/-- Carries out a call at a nesting of `depth` expressions. Failures pass through the location of
    the expression or of the initializer that is being evaluated; an expression that is nested too
    deep is not evaluated at all. -/
def carryOut (ev : Evaluator) : (fuel depth : Nat) → (c : Call) → Store → Outcome c.Reply
  | 0, _, _, _ => .exhausted
  | fuel + 1, depth, .perform (.evaluate e scope path), s =>
    if depth < ev.maxDepth then
      let p := ev.taskProgram (.evaluate e scope path)
      (p.run (ev.carryOut fuel (depth + 1)) s).through e.location
    else
      .error (ev.tooDeep e.location) s
  | fuel + 1, depth, .perform (.element initializer index path location), s =>
    let p := ev.taskProgram (.element initializer index path location)
    (p.run (ev.carryOut fuel depth) s).through location
  | _ + 1, _, .perform (.constant v), s => .value v s
  | fuel + 1, depth, .force cell, s =>
    let c := s.cell cell
    match c.progress with
    | .finished v => .value v s
    | .running => .error c.cyclic s
    | .pending =>
      settle cell (ev.carryOut fuel depth (.perform c.task) (s.setProgress cell .running))
  | fuel + 1, depth, .render spec v, s => (Render.value spec v).run (ev.carryOut fuel depth) s
  | fuel + 1, depth, .tie work visited, s =>
    (Network.tieStep work visited).run (ev.carryOut fuel depth) s

/-- Runs a program from outside of any expression. -/
def run {α : Type} (ev : Evaluator) (fuel : Nat) (p : Program α) (s : Store) : Outcome α :=
  p.run (ev.carryOut fuel 0) s

end Evaluator

end NetDesc
