import NetDesc.Program

namespace NetDesc

/-- A type that `new` instantiates from a record of fields. Types that act as scopes themselves
    name what their fields define from scratch. -/
structure RuntimeType where
  isRecordLike : Bool := false
  construct : (fields : RecordId) → Location → (path : String) → Program Value

/-- The pairs of operand types that operators are defined for. -/
inductive OperandPair where
  | numbers
  | texts
  | truths
  | objects
  | numberObject
  | objectNumber
deriving DecidableEq, Inhabited

namespace OperandPair

/-- The pair that two operands form, if there are operators for them. -/
def of? (left right : Value) : Option OperandPair :=
  match left.payload, right.payload with
  | .number _, .number _ => some numbers
  | .text _, .text _ => some texts
  | .truth _, .truth _ => some truths
  | .object _, .object _ => some objects
  | .number _, .object _ => some numberObject
  | .object _, .number _ => some objectNumber
  | _, _ => none

end OperandPair

/-- The pairs of operand types that each operator accepts. -/
structure OperatorTable where
  accepted : BinaryOp → List OperandPair

namespace OperatorTable

/-- No operator accepts anything. -/
def empty : OperatorTable where
  accepted _ := []

/-- The operators as the language defines them. -/
def standard : OperatorTable where
  accepted
    | .mul => [.numbers, .objects, .numberObject, .objectNumber]
    | .div | .pow | .rem => [.numbers]
    | .elemMul => [.objects]
    | .add => [.numbers, .texts, .objects]
    | .sub => [.numbers, .objects]
    | .eq | .ne | .lt | .gt | .le | .ge => [.numbers, .texts, .truths]
    | .and | .or | .xor => [.truths]

/-- Lets `target` accept what `source` accepts. -/
def copy (t : OperatorTable) (source target : BinaryOp) : OperatorTable where
  accepted op := if op = target then t.accepted source else t.accepted op

end OperatorTable

structure Registry where
  types : List (String × RuntimeType) := []
  operators : OperatorTable := .standard
  graphNodeType : String := "ComputationNode"

namespace Registry

/-- Puts a type in the place of the one of its name, or after all others. -/
def put (name : String) (t : RuntimeType) :
    List (String × RuntimeType) → List (String × RuntimeType)
  | [] => [(name, t)]
  | (known, other) :: rest =>
    if known = name then (name, t) :: rest else (known, other) :: put name t rest

/-- Registers a type and replaces any other of its name. -/
def register (r : Registry) (name : String) (t : RuntimeType) : Registry :=
  { r with types := put name t r.types }

def find? (r : Registry) (name : String) : Option RuntimeType :=
  r.types.lookup name

/-- The type of this name, or an error at the place that names it. -/
def runtimeType (r : Registry) (name : String) (location : Location) :
    Except EvalError RuntimeType :=
  match r.find? name with
  | some t => .ok t
  | none => .error { cause := .unknownType name, location }

/-- Instantiates a type and names the object after the path that defines it. -/
def instantiate (t : RuntimeType) (fields : RecordId) (location : Location) (path : String) :
    Program Value := do
  let v ← t.construct fields location path
  if let .object o := v.payload then
    Program.rename o path
  return v

/-- Instantiates the type of this name. -/
def construct (r : Registry) (name : String) (fields : RecordId) (location : Location)
    (path : String) : Program Value := do
  let t ← r.runtimeType name location
  instantiate t fields location path

end Registry

end NetDesc
