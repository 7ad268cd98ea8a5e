import NetDesc.Proofs.Run.Keeps
import NetDesc.Session

namespace NetDesc

inductive Event where
  | made (c : CellId) (p : Progress)
  /-- The first access, or the first one after a failure: the computation starts. -/
  | started (c : CellId)
  /-- The computation has given a value, which the cell keeps. -/
  | finished (c : CellId)
  | failed (c : CellId)
  /-- An access that finds the value. -/
  | reused (c : CellId)
  /-- An access while the computation is running. -/
  | refused (c : CellId)
  | printed (line : String)
  /-- The evaluation of an expression at this location begins, or that of an element of a
      comprehension with its initializer there. -/
  | entered (location : Location)
  /-- The evaluation that was entered last has ended, with a value or with an error. -/
  | left
  | raised (e : EvalError)

/-- What a step adds to the history. -/
def Access.history (s : Store) : Access → List Event
  | newCell c => [.made s.cells.size c.progress]
  | print line => [.printed line]
  | _ => []

/-- The history of a run, given how calls are carried out and what happens inside them. It is
    read off the run, following the same steps and calls with the same stores, so nothing can
    happen that it does not list. -/
def Program.history {α : Type} (carryOut : (c : Call) → Store → Outcome c.Reply)
    (inside : Call → Store → List Event) : Program α → Store → List Event
  | .done _, _ => []
  | .raise e, _ => [.raised e]
  | .access a next, s =>
    a.history s ++ (next (a.perform s).1).history carryOut inside (a.perform s).2
  | .call c next, s =>
    inside c s ++
      match carryOut c s with
      | .value reply t => (next reply).history carryOut inside t
      | _ => []

namespace Evaluator

/-- How the computation of a cell ends. -/
def ending (c : CellId) : Outcome Value → List Event
  | .value _ _ => [.finished c]
  | .error _ _ => [.failed c]
  | .exhausted => []

/-- What happens while a call is carried out. -/
def history (ev : Evaluator) : (fuel depth : Nat) → Call → Store → List Event
  | 0, _, _, _ => []
  | fuel + 1, depth, .perform (.evaluate e scope path), s =>
    if depth < ev.maxDepth then
      .entered e.location :: (ev.taskProgram (.evaluate e scope path)).history
        (ev.carryOut fuel (depth + 1)) (ev.history fuel (depth + 1)) s ++ [.left]
    else
      [.raised (ev.tooDeep e.location)]
  | fuel + 1, depth, .perform (.element initializer index path location), s =>
    .entered location :: (ev.taskProgram (.element initializer index path location)).history
      (ev.carryOut fuel depth) (ev.history fuel depth) s ++ [.left]
  | _ + 1, _, .perform (.constant _), _ => []
  | fuel + 1, depth, .force cell, s =>
    match (s.cell cell).progress with
    | .finished _ => [.reused cell]
    | .running => [.refused cell, .raised (s.cell cell).cyclic]
    | .pending =>
      let task := Call.perform (s.cell cell).task
      let begun := s.setProgress cell .running
      .started cell :: ev.history fuel depth task begun ++
        ending cell (ev.carryOut fuel depth task begun)
  | fuel + 1, depth, .render spec v, s =>
    (Render.value spec v).history (ev.carryOut fuel depth) (ev.history fuel depth) s
  | fuel + 1, depth, .tie work visited, s =>
    (Network.tieStep work visited).history (ev.carryOut fuel depth) (ev.history fuel depth) s

section Equations

variable (ev : Evaluator) (fuel depth : Nat) (s : Store)

theorem history_evaluate {depth : Nat} (h : depth < ev.maxDepth) (e : Expr) (scope : RecordId)
    (path : String) :
    ev.history (fuel + 1) depth (.perform (.evaluate e scope path)) s =
      .entered e.location :: (ev.taskProgram (.evaluate e scope path)).history
        (ev.carryOut fuel (depth + 1)) (ev.history fuel (depth + 1)) s ++ [.left] :=
  if_pos h

theorem history_evaluate_deep {depth : Nat} (h : ev.maxDepth ≤ depth) (e : Expr)
    (scope : RecordId) (path : String) :
    ev.history (fuel + 1) depth (.perform (.evaluate e scope path)) s =
      [.raised (ev.tooDeep e.location)] :=
  if_neg (Nat.not_lt.2 h)

theorem history_element (initializer : Function) (index : Value) (path : String)
    (location : Location) :
    ev.history (fuel + 1) depth (.perform (.element initializer index path location)) s =
      .entered location :: (initializer.apply [index] [] path location).history
        (ev.carryOut fuel depth) (ev.history fuel depth) s ++ [.left] := rfl

variable {s} {c : CellId}

theorem history_force_finished {v : Value} (h : (s.cell c).progress = .finished v) :
    ev.history (fuel + 1) depth (.force c) s = [.reused c] := by
  simp only [history, h]

theorem history_force_running (h : (s.cell c).progress = .running) :
    ev.history (fuel + 1) depth (.force c) s =
      [.refused c, .raised (s.cell c).cyclic] := by
  simp only [history, h]

theorem history_force_pending (h : (s.cell c).progress = .pending) :
    ev.history (fuel + 1) depth (.force c) s =
      .started c :: ev.history fuel depth (.perform (s.cell c).task) (s.setProgress c .running) ++
        ending c (ev.carryOut fuel depth (.perform (s.cell c).task)
          (s.setProgress c .running)) := by
  simp only [history, h]

end Equations

/-- What happens while a whole tree is evaluated. -/
def topLevelHistory (ev : Evaluator) (fuel : Nat) (root : Expr) (s : Store) : List Event :=
  (ev.wholeTree root).history (ev.carryOut fuel 0) (ev.history fuel 0) s

/-- What happens while a member of a whole tree is evaluated. The tree's location is entered once
    more when the member is fetched. -/
def memberHistory (ev : Evaluator) (fuel : Nat) (root : Expr) (name : String) (s : Store) :
    List Event :=
  ev.topLevelHistory fuel root s ++
    match ev.evaluateTopLevel fuel root s with
    | .value v t =>
      .entered root.location :: (Program.memberOf v name root.location).history
        (ev.carryOut fuel 0) (ev.history fuel 0) t ++ [.left]
    | _ => []

end Evaluator

/-- What a history prints. -/
def Event.line? : Event → Option String
  | printed line => some line
  | _ => none

/-- The lines that a history prints, in order. -/
def printedLines (events : List Event) : List String :=
  events.filterMap Event.line?

theorem printedLines_append (events more : List Event) :
    printedLines (events ++ more) = printedLines events ++ printedLines more :=
  List.filterMap_append

/-- That a computation starts and ends prints nothing. -/
theorem printedLines_computation (c : CellId) (events : List Event) (o : Outcome Value) :
    printedLines (.started c :: events ++ Evaluator.ending c o) = printedLines events := by
  rw [printedLines_append]
  cases o <;> exact List.append_nil _

/-- That something is entered and left prints nothing. -/
theorem printedLines_entered (location : Location) (events : List Event) :
    printedLines (.entered location :: events ++ [.left]) = printedLines events := by
  rw [printedLines_append]
  exact List.append_nil _

/-- A run prints the lines of its history and no others. -/
def Prints (s : Store) (events : List Event) {α : Type} (o : Outcome α) : Prop :=
  ∀ t, o.store? = some t → t.printed.toList = s.printed.toList ++ printedLines events

theorem Access.perform_printed (a : Access) (s : Store) :
    (a.perform s).2.printed.toList = s.printed.toList ++ printedLines (a.history s) := by
  cases a with
  | rename o name => cases o <;> exact (List.append_nil _).symm
  | print line => exact Array.toList_push
  | _ => exact (List.append_nil _).symm

namespace Program

variable {α : Type} {carryOut : (c : Call) → Store → Outcome c.Reply}
  {inside : Call → Store → List Event}

theorem history_prints (hcalls : ∀ c s, Prints s (inside c s) (carryOut c s)) (p : Program α)
    (s : Store) : Prints s (p.history carryOut inside s) (p.run carryOut s) := by
  induction p generalizing s with
  | done result =>
    rintro t ⟨⟩
    exact (List.append_nil _).symm
  | raise e =>
    rintro t ⟨⟩
    exact (List.append_nil _).symm
  | access a next ih =>
    intro t ht
    have hrest := ih (a.perform s).1 (a.perform s).2 t ht
    rw [a.perform_printed, List.append_assoc, ← printedLines_append] at hrest
    exact hrest
  | call c next ih =>
    intro t ht
    have hcall := hcalls c s
    rw [run] at ht
    rw [history]
    cases hreply : carryOut c s with
    | value reply u =>
      rw [hreply] at ht hcall
      rw [ih reply u t ht, hcall u rfl, printedLines_append, List.append_assoc]
    | error e u =>
      rw [hreply] at ht hcall
      rw [hcall t ht, List.append_nil]
    | exhausted =>
      rw [hreply] at ht
      cases ht

end Program

/-- With any fuel and at any depth, a call prints the lines of its history. -/
theorem Evaluator.history_prints (ev : Evaluator) (fuel depth : Nat) (c : Call) (s : Store) :
    Prints s (ev.history fuel depth c s) (ev.carryOut fuel depth c s) := by
  have hnone {α : Type} {s : Store} {o : Outcome α} {events : List Event}
      (h : o.store? = some s) (hlines : printedLines events = []) : Prints s events o := by
    intro t ht
    rw [h] at ht
    cases ht
    rw [hlines, List.append_nil]
  induction fuel generalizing depth c s with
  | zero =>
    intro t ht
    rw [carryOut_zero] at ht
    cases ht
  | succ fuel ih =>
    have hrun {α : Type} (p : Program α) (depth : Nat) :
        Prints s (p.history (ev.carryOut fuel depth) (ev.history fuel depth) s)
          (p.run (ev.carryOut fuel depth) s) :=
      Program.history_prints (ih depth) p s
    cases c with
    | perform task =>
      cases task with
      | evaluate e scope path =>
        rcases Nat.lt_or_ge depth ev.maxDepth with hdepth | hdepth
        · rw [carryOut_evaluate ev fuel s hdepth, history_evaluate ev fuel s hdepth]
          intro t ht
          rw [printedLines_entered]
          exact hrun _ _ t ((Outcome.store?_through _ _).symm.trans ht)
        · rw [carryOut_evaluate_deep ev fuel s hdepth, history_evaluate_deep ev fuel s hdepth]
          exact hnone rfl rfl
      | element initializer index path location =>
        intro t ht
        rw [carryOut_element] at ht
        rw [history_element, printedLines_entered]
        exact hrun _ _ t ((Outcome.store?_through _ _).symm.trans ht)
      | constant v => exact hnone rfl rfl
    | force cell =>
      cases hprogress : (s.cell cell).progress with
      | finished v =>
        rw [carryOut_force_finished ev fuel depth hprogress,
          history_force_finished ev fuel depth hprogress]
        exact hnone rfl rfl
      | running =>
        rw [carryOut_force_running ev fuel depth hprogress,
          history_force_running ev fuel depth hprogress]
        exact hnone rfl rfl
      | pending =>
        rw [carryOut_force_pending ev fuel depth hprogress,
          history_force_pending ev fuel depth hprogress]
        intro t ht
        obtain ⟨u, p, hu, rfl⟩ := settle_store? ht
        refine .trans ?_ (congrArg (s.printed.toList ++ ·)
          (printedLines_computation cell _ _).symm)
        exact ih depth (.perform (s.cell cell).task) (s.setProgress cell .running) u hu
    | render spec v => exact hrun _ _
    | tie work visited => exact hrun _ _

end NetDesc
