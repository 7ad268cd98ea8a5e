import NetDesc.Standard.Node

namespace NetDesc

namespace Network

/-- The members of a record that are nodes. All members are computed. -/
def roots (members : List Member) : Program (List NodeId) := do
  let values ← Program.forceAll (members.map (·.cell))
  return values.filterMap fun v =>
    match v.payload with
    | .object (.node id) => some id
    | _ => none

/-- The name of the unnamed node that is found after `count` others. -/
def freshName (count : Nat) : String :=
  s!"anonymousNode{count + 1}"

/-- Nodes by name while they are collected: those found so far with their names, how many of them
    had no name before, and the nodes that some node takes as input. -/
structure Collected where
  nodes : Array (String × NodeId) := #[]
  unnamed : Nat := 0
  inputs : List NodeId := []

namespace Collected

/-- Adds a node and names it if it has no name. Names are unique within a network. -/
def add (c : Collected) (id : NodeId) (location : Location) : Program Collected := do
  let n ← Program.readNode id
  let (name, unnamed) := if n.isNamed then (n.name, c.unnamed) else
    (freshName c.unnamed, c.unnamed + 1)
  unless n.isNamed do
    Program.rename (.node id) name
  if c.nodes.any (·.1 == name) then
    .raise (.invalidArgument s!"multiple nodes with the name {name}" location)
  else
    return { nodes := c.nodes.push (name, id), unnamed, inputs := c.inputs ++ n.inputs }

/-- Adds nodes one after another. -/
def addAll (c : Collected) (location : Location) : List NodeId → Program Collected
  | [] => return c
  | id :: rest => do (← c.add id location).addAll location rest

end Collected

/-- The names of nodes without inputs, by what they are for. -/
structure Sources where
  inputs : List String := []
  parameters : List String := []

/-- Sorts out the nodes without inputs. Only inputs of the network and parameters may have none. -/
def sources (location : Location) : List (String × NodeId) → Program Sources
  | [] => return {}
  | (name, id) :: rest => do
    let n ← Program.readNode id
    if n.inputs.isEmpty then
      match n.operation with
      | .inputValue =>
        let s ← sources location rest
        return { s with inputs := name :: s.inputs }
      | .learnableParameter =>
        let s ← sources location rest
        return { s with parameters := name :: s.parameters }
      | op =>
        let message :=
          s!"node {name} ({op.name}) has no inputs but is neither " ++
            "an InputValue nor a LearnableParameter"
        .raise (.invalidArgument message location)
    else
      sources location rest

/-- The nodes among visited objects. -/
def nodesOf (visited : List Object) : List NodeId :=
  visited.filterMap fun o =>
    match o with
    | .node id => some id
    | _ => none

/-- The network of everything that can be reached from the members of `fields`. What the nodes
    among them reach is tied together breadth first, nodes without a name get one, and the nodes
    are sorted by what they are for. -/
def ofFields (fields : RecordId) (location : Location) : Program Network := do
  let r ← Program.readRecord fields
  let roots ← roots (r.members.toList.map (·.2))
  let visited ← Program.tie (roots.map .node) []
  let collected ← Collected.addAll {} location (nodesOf visited)
  let nodes := collected.nodes.toList
  let sources ← sources location nodes
  let isOutput (n : String × NodeId) : Bool := !collected.inputs.contains n.2
  let outputs := (nodes.filter isOutput).map (·.1)
  return {
    nodes
    inputs := sources.inputs
    parameters := sources.parameters
    outputs
    fields
    location }

def construct (fields : RecordId) (location : Location) (path : String) : Program Value := do
  let n ← ofFields fields location
  let id ← Program.newNetwork n
  return .object (.network id) location path

def runtimeType : RuntimeType where
  isRecordLike := true
  construct := construct

/-- One step of tying objects together: the first object in `work` is finalized and its children
    join the end of the work, unless it was visited before. The rest is left to the next step. -/
def tieStep : (work visited : List Object) → Program (List Object)
  | [], visited => return visited
  | o :: work, visited =>
    if visited.contains o then
      Program.tie work visited
    else do
      if let .node id := o then
        Node.finalize id
      let visited := visited ++ [o]
      let children ← Program.children o
      Program.tie (work ++ children.filter (!visited.contains ·)) visited

end Network

end NetDesc
