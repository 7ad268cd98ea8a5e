import NetDesc.Format.Spec
import NetDesc.Store.Access

namespace NetDesc

/-- What a program may ask the evaluator to carry out. Whatever may go on for ever does so
    through calls, and how deep they may nest is up to whoever runs the program. -/
inductive Call where
  /-- Carries out a computation, without keeping its result. -/
  | perform (task : Task)
  /-- Gives the value of a cell, computing it if this is the first access. -/
  | force (cell : CellId)
  /-- Gives the text of a value, computing all it consists of. -/
  | render (spec : FormatSpec) (v : Value)
  /-- Ties together everything that can be reached from the objects in `work`, one after another.
      Gives the objects visited, in that order, after those in `visited`. -/
  | tie (work visited : List Object)

namespace Call

/-- What a call answers. -/
def Reply : Call → Type
  | perform _ => Value
  | force _ => Value
  | render _ _ => String
  | tie _ _ => List Object

end Call

inductive Program (α : Type) where
  | done (result : α)
  | raise (e : EvalError)
  | access (a : Access) (next : a.Reply → Program α)
  | call (c : Call) (next : c.Reply → Program α)

namespace Program

variable {α β : Type}

/-- Goes on with `f` from the result. -/
def bind (p : Program α) (f : α → Program β) : Program β :=
  match p with
  | done result => f result
  | raise e => raise e
  | access a next => access a fun reply => (next reply).bind f
  | call c next => call c fun reply => (next reply).bind f

instance : Monad Program where
  pure := done
  bind := bind

/-- The outcome of a check as a program. -/
def ofExcept : Except EvalError α → Program α
  | .ok result => done result
  | .error e => raise e

instance : MonadLift (Except EvalError) Program where
  monadLift := ofExcept

@[simp]
theorem done_bind (result : α) (f : α → Program β) : (done result).bind f = f result := rfl

@[simp]
theorem raise_bind (e : EvalError) (f : α → Program β) : (raise e : Program α).bind f = raise e :=
  rfl

@[simp]
theorem bind_done (p : Program α) : p.bind done = p := by
  induction p with
  | done result => rfl
  | raise e => rfl
  | access a next ih => simp only [bind, ih]
  | call c next ih => simp only [bind, ih]

theorem bind_assoc {γ : Type} (p : Program α) (f : α → Program β) (g : β → Program γ) :
    (p.bind f).bind g = p.bind fun a => (f a).bind g := by
  induction p with
  | done result => rfl
  | raise e => rfl
  | access a next ih => simp only [bind, ih]
  | call c next ih => simp only [bind, ih]

instance : LawfulMonad Program :=
  LawfulMonad.mk' Program bind_done (fun _ _ => rfl) bind_assoc

/-- A single step on the store. -/
def step (a : Access) : Program a.Reply :=
  access a done

def readCell (id : CellId) : Program Cell :=
  step (.readCell id)

def newCell (c : Cell) : Program CellId :=
  step (.newCell c)

def readRecord (id : RecordId) : Program Record :=
  step (.readRecord id)

/-- Finds a member in a record or in those around it. -/
def find (scope : RecordId) (name : String) : Program (Option Member) :=
  step (.find scope name)

def newRecord (parent : Option RecordId) : Program RecordId :=
  step (.newRecord parent)

def addMember (record : RecordId) (name : String) (m : Member) : Program Unit :=
  step (.addMember record name m)

def readNode (id : NodeId) : Program Node :=
  step (.readNode id)

def newNode (n : Node) : Program NodeId :=
  step (.newNode n)

def tieInput (node input : NodeId) : Program Unit :=
  step (.tieInput node input)

def readNetwork (id : NetworkId) : Program Network :=
  step (.readNetwork id)

def newNetwork (n : Network) : Program NetworkId :=
  step (.newNetwork n)

def newAction (a : Action) : Program ActionId :=
  step (.newAction a)

/-- The text of a cell without computing anything. -/
def summarize (id : CellId) : Program String :=
  step (.summarize id)

/-- The objects that an object refers to. -/
def children (o : Object) : Program (List Object) :=
  step (.children o)

/-- The text with which an object describes itself. -/
def describe (o : Object) : Program String :=
  step (.describe o)

def rename (o : Object) (name : String) : Program Unit :=
  step (.rename o name)

def print (line : String) : Program Unit :=
  step (.print line)

/-- Carries out a computation. -/
def perform (task : Task) : Program Value :=
  call (.perform task) done

/-- Evaluates an expression. -/
def evaluate (e : Expr) (scope : RecordId) (path : String) : Program Value :=
  perform (.evaluate e scope path)

/-- Evaluates the part of an expression that is called `id` in paths. -/
def evaluatePart (e : Expr) (scope : RecordId) (path id : String) : Program Value :=
  evaluate e scope (joinPath path id)

def force (cell : CellId) : Program Value :=
  call (.force cell) done

def render (spec : FormatSpec) (v : Value) : Program String :=
  call (.render spec v) done

def tie (work visited : List Object) : Program (List Object) :=
  call (.tie work visited) done

/-- A cell that evaluates an expression on first access. -/
def suspend (e : Expr) (scope : RecordId) (path : String) : Program CellId :=
  newCell (.suspended (.evaluate e scope path) e.location path)

/-- Adds a member whose value is known. -/
def addValue (record : RecordId) (name : String) (v : Value) : Program Unit := do
  let cell ← newCell (.ready v)
  addMember record name { location := v.location, cell }

end Program

end NetDesc
