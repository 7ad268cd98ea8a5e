import NetDesc.Run

namespace NetDesc

namespace Evaluator

/-- Evaluates a whole tree in an empty outermost record. Like all that one does with an
    evaluator, this takes the store that earlier evaluations have left and leaves one for later
    ones. -/
def wholeTree (ev : Evaluator) (root : Expr) : Program Value := do
  let scope ← Program.newRecord none
  Program.evaluate root scope ev.rootPath

def evaluateTopLevel (ev : Evaluator) (fuel : Nat) (root : Expr) (s : Store) : Outcome Value :=
  ev.run fuel (ev.wholeTree root) s

/-- Evaluates a whole tree and gives one of its members. -/
def evaluateMember (ev : Evaluator) (fuel : Nat) (root : Expr) (name : String) (s : Store) :
    Outcome Value :=
  (ev.evaluateTopLevel fuel root s).bind fun v s =>
    (ev.run fuel (Program.memberOf v name root.location) s).through root.location

/-- The member that holds the action of a description. -/
def actionName : String := "do"

/-- Evaluates the action of a description. -/
def runAction (ev : Evaluator) (fuel : Nat) (root : Expr) (s : Store) : Outcome Value :=
  ev.evaluateMember fuel root actionName s

/-- The text of a value in a format. -/
def formatValue (ev : Evaluator) (fuel : Nat) (v : Value) (how : String) (s : Store) :
    Outcome String :=
  ev.run fuel (do Program.render (← FormatSpec.parse how v.location) v) s

/-- Ties together everything that can be reached from some objects, breadth first. -/
def finalizeGraph (ev : Evaluator) (fuel : Nat) (roots : List Object) (s : Store) :
    Outcome (List Object) :=
  ev.run fuel (Program.tie roots []) s

end Evaluator

namespace Store

/-- The names under which the members of a network can be accessed: those of its nodes, and those
    of the fields it was made from unless a node has them. -/
def memberNames (s : Store) (n : Network) : List String :=
  n.names ++ (s.record n.fields).names.filter fun name => (n.find? name).isNone

end Store

end NetDesc
