import NetDesc.Program

namespace NetDesc

namespace Program

/-- The value of a cell that may not have been found. -/
def forceFound (found : Option CellId) (missing : EvalError) : Program Value :=
  match found with
  | some cell => force cell
  | none => raise missing

/-- The value that an identifier stands for in a scope: it sees the record it stands in and those
    around it. -/
def lookup (scope : RecordId) (name : String) (location : Location) : Program Value := do
  let found ← find scope name
  forceFound (found.map (·.cell)) (.unknownIdentifier name location)

/-- The cell of a field of the record itself. Runtime types see no other records. -/
def fieldCell (fields : RecordId) (name : String) : Program (Option CellId) := do
  let r ← readRecord fields
  return (r.find? name).map (·.cell)

/-- The value of a field that has to be there. That it is missing is reported without a location,
    so that the expression that instantiates the type lends it its own. -/
def field (fields : RecordId) (name : String) : Program Value := do
  forceFound (← fieldCell fields name) (.unknownIdentifier name .unknown)

/-- The value of a field that may be left out. -/
def optionalField (fields : RecordId) (name : String) : Program (Option Value) := do
  match ← fieldCell fields name with
  | some cell => return some (← force cell)
  | none => return none

/-- Forces cells one after another. -/
def forceAll (cells : List CellId) : Program (List Value) :=
  cells.mapM force

/-- The cell of a member of a network: one of its nodes, or else a field it was made from. -/
def networkMember (id : NetworkId) (name : String) : Program (Option CellId) := do
  let n ← readNetwork id
  match n.find? name with
  | some node =>
    let cell ← newCell (.ready (.object (.node node) n.location name))
    return some cell
  | none => fieldCell n.fields name

/-- The cell of a member, for values that have members at all. -/
def memberCell? (base : Value) (name : String) : Option (Program (Option CellId)) :=
  match base.payload with
  | .record id => some do
    let found ← find id name
    return found.map (·.cell)
  | .object (.network id) => some (networkMember id name)
  | _ => none

/-- The value of a member of a record or a network. A record shows the members of the records
    around it, too. -/
def memberOf (base : Value) (name : String) (location : Location) : Program Value :=
  match memberCell? base name with
  | some find => do forceFound (← find) (.unknownIdentifier name location)
  | none => raise (.typeMismatch "record" base.typeName location)

end Program

end NetDesc
