import NetDesc.Store

namespace NetDesc

/-- What a program may do to the store in one step. A step adds something at the end of one of
    the tables, changes one entry, or only looks; nothing is ever removed. -/
inductive Access where
  | readCell (id : CellId)
  | newCell (c : Cell)
  | readRecord (id : RecordId)
  | find (scope : RecordId) (name : String)
  /-- A new record without members, inside another one if there is a parent. -/
  | newRecord (parent : Option RecordId)
  | addMember (record : RecordId) (name : String) (m : Member)
  | readNode (id : NodeId)
  | newNode (n : Node)
  /-- Resolves the input that a delay node was waiting for. -/
  | tieInput (node input : NodeId)
  | readNetwork (id : NetworkId)
  | newNetwork (n : Network)
  | newAction (a : Action)
  /-- The text of a cell without computing anything. -/
  | summarize (id : CellId)
  | children (o : Object)
  | describe (o : Object)
  /-- Names a node or an action. Networks are not named. -/
  | rename (o : Object) (name : String)
  | print (line : String)

namespace Access

/-- What a step answers. -/
def Reply : Access → Type
  | readCell _ => Cell
  | newCell _ => CellId
  | readRecord _ => Record
  | find _ _ => Option Member
  | newRecord _ => RecordId
  | addMember _ _ _ => Unit
  | readNode _ => Node
  | newNode _ => NodeId
  | tieInput _ _ => Unit
  | readNetwork _ => Network
  | newNetwork _ => NetworkId
  | newAction _ => ActionId
  | summarize _ => String
  | children _ => List Object
  | describe _ => String
  | rename _ _ => Unit
  | print _ => Unit

/-- The records around a new record. -/
def enclosing (s : Store) : Option RecordId → List RecordId
  | some parent => parent :: (s.record parent).enclosing
  | none => []

def perform : (a : Access) → Store → a.Reply × Store
  | readCell id, s => (s.cell id, s)
  | newCell c, s => (s.cells.size, { s with cells := s.cells.push c })
  | readRecord id, s => (s.record id, s)
  | find scope name, s => (s.find? scope name, s)
  | newRecord parent, s =>
    let r : Record := { enclosing := enclosing s parent }
    (s.records.size, { s with records := s.records.push r })
  | addMember id name m, s =>
    ((), { s with records := s.records.modify id (·.add name m) })
  | readNode id, s => (s.node id, s)
  | newNode n, s => (s.nodes.size, { s with nodes := s.nodes.push n })
  | tieInput id input, s =>
    let tie (n : Node) := { n with inputs := n.inputs ++ [input], pendingInput := none }
    ((), { s with nodes := s.nodes.modify id tie })
  | readNetwork id, s => (s.network id, s)
  | newNetwork n, s => (s.networks.size, { s with networks := s.networks.push n })
  | newAction a, s => (s.actions.size, { s with actions := s.actions.push a })
  | summarize id, s => (s.cellSummary (s.cell id), s)
  | children o, s => (s.children o, s)
  | describe o, s => (s.describe o, s)
  | rename (.node id) name, s => ((), { s with nodes := s.nodes.modify id ({ · with name }) })
  | rename (.action id) name, s =>
    ((), { s with actions := s.actions.modify id ({ · with name }) })
  | rename (.network _) _, s => ((), s)
  | print line, s => ((), { s with printed := s.printed.push line })

end Access

end NetDesc
