import NetDesc.Format.Layout
import NetDesc.Operation
import NetDesc.Value

namespace NetDesc

/-- A computation that a cell puts off. -/
inductive Task where
  /-- Evaluates an expression in a scope. -/
  | evaluate (e : Expr) (scope : RecordId) (path : String)
  /-- Calls the initializer of an array with an index. Failures pass through `location`. -/
  | element (initializer : Function) (index : Value) (path : String) (location : Location)
  /-- Gives a value that is known from the start. -/
  | constant (v : Value)

/-- How far a cell's computation has come. -/
inductive Progress where
  | pending
  | running
  | finished (v : Value)

/-- A computation that runs on first access, with its result, once it has one, and where the
    result is defined. -/
structure Cell where
  task : Task
  progress : Progress
  location : Location
  path : String

namespace Cell

/-- A cell that has not been accessed yet. -/
def suspended (task : Task) (location : Location) (path : String) : Cell :=
  { task, progress := .pending, location, path }

/-- A cell that holds a value from the start. -/
def ready (v : Value) : Cell :=
  { task := .constant v, progress := .finished v, location := v.location, path := v.path }

def isFinished (c : Cell) : Bool :=
  match c.progress with
  | .finished _ => true
  | _ => false

instance : Inhabited Cell := ⟨.ready (.truth false .unknown "")⟩

end Cell

/-- A member: where it is declared and the cell of its value. -/
structure Member where
  location : Location
  cell : CellId
deriving DecidableEq, Inhabited

/-- A table of members in the order of declaration, and the records around it, innermost first. -/
structure Record where
  members : Array (String × Member) := #[]
  enclosing : List RecordId := []
deriving DecidableEq, Inhabited

namespace Record

/-- The member of this name in the record itself. -/
def find? (r : Record) (name : String) : Option Member :=
  (r.members.find? (·.1 == name)).map (·.2)

def contains (r : Record) (name : String) : Bool :=
  (r.find? name).isSome

def names (r : Record) : List String :=
  r.members.toList.map (·.1)

/-- Adds a member after all others, or in the place of the one that has its name. -/
def add (r : Record) (name : String) (m : Member) : Record :=
  if r.contains name then
    { r with members := r.members.map fun p => if p.1 = name then (name, m) else p }
  else
    { r with members := r.members.push (name, m) }

end Record

/-- Settings that only nodes of some operations have. -/
inductive NodeSettings where
  | none
  | parameter (outDim inDim : Nat)
  | scale (factor : Float)
  | rowSlice (first num : Nat)
  | delay (deltaT : Int64)
deriving DecidableEq, Inhabited

/-- A vertex of a network. The input of a delay node waits in a cell until the network is tied
    together; that is what lets nodes refer to each other in cycles. -/
structure Node where
  operation : Operation
  name : String := ""
  tag : String := ""
  settings : NodeSettings := .none
  inputs : List NodeId := []
  pendingInput : Option CellId := Option.none
deriving DecidableEq, Inhabited

namespace Node

def isNamed (n : Node) : Bool :=
  !n.name.isEmpty

/-- Whether nothing is left to be tied. -/
def isFinalized (n : Node) : Bool :=
  n.pendingInput.isNone

end Node

/-- A network: its nodes by name in the order in which they were found, the names of those that it
    reads, learns and computes, and the record it was made from. -/
structure Network where
  nodes : List (String × NodeId)
  inputs : List String
  parameters : List String
  outputs : List String
  fields : RecordId
  location : Location
deriving DecidableEq, Inhabited

namespace Network

def names (n : Network) : List String :=
  n.nodes.map (·.1)

def find? (n : Network) (name : String) : Option NodeId :=
  n.nodes.lookup name

end Network

/-- What a print action has printed, and its name. -/
structure Action where
  text : String
  name : String := ""
deriving DecidableEq, Inhabited

/-- Everything that is shared or changes during evaluation. The store only grows, and references
    are positions in it, so a reference stays good for ever. -/
structure Store where
  cells : Array Cell := #[]
  records : Array Record := #[]
  nodes : Array Node := #[]
  networks : Array Network := #[]
  actions : Array Action := #[]
  printed : Array String := #[]
deriving Inhabited

namespace Store

def cell (s : Store) (id : CellId) : Cell :=
  s.cells.getD id default

def record (s : Store) (id : RecordId) : Record :=
  s.records.getD id default

def node (s : Store) (id : NodeId) : Node :=
  s.nodes.getD id default

def network (s : Store) (id : NetworkId) : Network :=
  s.networks.getD id default

def action (s : Store) (id : ActionId) : Action :=
  s.actions.getD id default

/-- The member of this name in the record or, failing that, in the innermost record around it that
    has one. -/
def find? (s : Store) (scope : RecordId) (name : String) : Option Member :=
  (scope :: (s.record scope).enclosing).findSome? fun id => (s.record id).find? name

/-- The name that a node carries, or an action. Networks have none. -/
def nameOf? (s : Store) : Object → Option String
  | .node id => some (s.node id).name
  | .action id => some (s.action id).name
  | .network _ => none

/-- The objects that an object refers to. -/
def children (s : Store) : Object → List Object
  | .node id => (s.node id).inputs.map .node
  | .network id => (s.network id).nodes.map fun (_, node) => .node node
  | .action _ => []

/-- The name under which a node shows its inputs: their own names. -/
def inputNames (s : Store) (n : Node) : List String :=
  n.inputs.map fun id => (s.node id).name

/-- A node with its name, its operation and what that is applied to. -/
def describeNode (s : Store) (n : Node) : String :=
  let head := s!"{n.name} : {n.operation.name}"
  match n.settings with
  | .parameter outDim inDim => s!"{head} ({outDim}, {inDim})"
  | settings =>
    let factor :=
      match settings with
      | .scale factor => [Number.text factor]
      | _ => []
    match factor ++ s.inputNames n with
    | [] => s!"{head}()"
    | args => s!"{head} " ++ Layout.nest ("\n".intercalate args) '(' true ')'

/-- A network with its nodes. -/
def describeNetwork (s : Store) (n : Network) : String :=
  let nodes := n.nodes.map fun (_, id) => s.describeNode (s.node id)
  "NDLComputationNetwork " ++ Layout.nest ("\n".intercalate nodes) '[' true ']'

/-- The text with which an object describes itself. -/
def describe (s : Store) : Object → String
  | .node id => s.describeNode (s.node id)
  | .network id => s.describeNetwork (s.network id)
  | .action id => s!"<{(Object.action id).typeName}>"

/-- The text of a value without computing any of it. -/
def summary (s : Store) (v : Value) : String :=
  match v.payload with
  | .number x => Number.text x
  | .text t => s!"\"{t}\""
  | .truth b => if b then "true" else "false"
  | .record id => "[" ++ ";".intercalate ((s.record id).names.map (" " ++ ·)) ++ " ]"
  | .array a => s!"<array {a.first}..{a.last}>"
  | .function f => s!"<function {f.name}>"
  | .object o => s!"<{o.typeName}>"

/-- How far a cell has come, or the text of its value. -/
def cellSummary (s : Store) (c : Cell) : String :=
  match c.progress with
  | .pending => s!"<pending {c.path}>"
  | .running => s!"<in progress {c.path}>"
  | .finished v => s.summary v

def setProgress (s : Store) (id : CellId) (progress : Progress) : Store :=
  { s with cells := s.cells.modify id fun c => { c with progress } }

end Store

end NetDesc
