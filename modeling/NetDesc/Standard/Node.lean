import NetDesc.Members
import NetDesc.Registry

namespace NetDesc

namespace Node

/-- A field that is a count. -/
def dimension (fields : RecordId) (name : String) : Program Nat := do
  let v ← Program.field fields name
  let n ← v.asIndex
  if n < 0 then
    .raise (.invalidArgument s!"{name} must not be negative, got {n}" v.location)
  else
    return n.toInt.toNat

/-- The values of the field `inputs`, which is one value or an array of values. There have to be as
    many as the operation takes. -/
def inputValues (fields : RecordId) (op : Operation) : Program (List Value) := do
  let inputs ← Program.field fields "inputs"
  let values ←
    match inputs.payload with
    | .array a => Program.forceAll a.cells.toList
    | _ => pure [inputs]
  let expected := op.inputCount?.getD 0
  if values.length = expected then
    return values
  else
    let counts := s!"expected {expected}, got {values.length}"
    let message :=
      s!"unexpected number of inputs to ComputationNode class {op.className}: {counts}"
    .raise (.invalidArgument message inputs.location)

/-- The nodes of the field `inputs`. -/
def inputNodes (fields : RecordId) (op : Operation) : Program (List NodeId) := do
  let values ← inputValues fields op
  values.mapM fun v => v.asNode

/-- The factor and the node of a scale node. -/
def scaleInputs : List Value → Except EvalError (Float × List NodeId)
  | factor :: inputs => do
    let factor ← factor.asNumber
    return (factor, ← inputs.mapM Value.asNode)
  | [] => return (0, [])

/-- A node of the operation, made from its fields. The input of a delay may not exist yet and is
    left to be tied later. -/
def ofFields (op : Operation) (tag : String) (fields : RecordId) : Program Node := do
  match op with
  | .learnableParameter =>
    let outDim ← dimension fields "outDim"
    let inDim ← dimension fields "inDim"
    return { operation := op, tag, settings := .parameter outDim inDim }
  | .inputValue => return { operation := op, tag }
  | .delay =>
    match ← Program.fieldCell fields "input" with
    | none => .raise (.unknownIdentifier "input" .unknown)
    | some input =>
      let deltaT ← Program.field fields "deltaT"
      let deltaT ← deltaT.asIndex
      return { operation := op, tag, settings := .delay deltaT, pendingInput := some input }
  | .scale =>
    let values ← inputValues fields op
    let (factor, inputs) ← scaleInputs values
    return { operation := op, tag, settings := .scale factor, inputs }
  | .rowSlice =>
    let first ← dimension fields "first"
    let num ← dimension fields "num"
    let inputs ← inputNodes fields op
    return { operation := op, tag, settings := .rowSlice first num, inputs }
  | _ =>
    let inputs ← inputNodes fields op
    return { operation := op, tag, inputs }

/-- The operation that the field `class` selects, and with it which other fields are read. -/
def selectedOperation (fields : RecordId) : Program Operation := do
  let v ← Program.field fields "class"
  let className ← v.asText
  match Operation.ofClass? className with
  | some op => return op
  | none => .raise (.invalidArgument s!"unknown ComputationNode class {className}" v.location)

/-- The field `optionalTag`, empty if it is left out. -/
def tagOf (fields : RecordId) : Program String := do
  match ← Program.optionalField fields "optionalTag" with
  | some v => return ← v.asText
  | none => return ""

def construct (fields : RecordId) (location : Location) (path : String) : Program Value := do
  let op ← selectedOperation fields
  let tag ← tagOf fields
  let n ← ofFields op tag fields
  let id ← Program.newNode n
  return .object (.node id) location path

/-- Ties the input of a delay node, if that is still to be done. -/
def finalize (id : NodeId) : Program Unit := do
  let n ← Program.readNode id
  match n.pendingInput with
  | some cell =>
    let v ← Program.force cell
    let input ← v.asNode
    Program.tieInput id input
  | none => return ()

def runtimeType : RuntimeType where
  construct := construct

end Node

end NetDesc
