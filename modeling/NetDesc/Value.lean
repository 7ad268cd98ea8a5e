import NetDesc.EvalError
import NetDesc.Expr
import NetDesc.Number

namespace NetDesc

/-- Refers to a cell of the store. -/
abbrev CellId := Nat

/-- Refers to a record of the store. -/
abbrev RecordId := Nat

/-- Refers to a node of the store. -/
abbrev NodeId := Nat

/-- Refers to a network of the store. -/
abbrev NetworkId := Nat

/-- Refers to an action of the store. -/
abbrev ActionId := Nat

/-- A reference to an object. Two objects are the same iff the references are equal. -/
inductive Object where
  | node (id : NodeId)
  | network (id : NetworkId)
  | action (id : ActionId)
deriving DecidableEq, Inhabited

namespace Object

def typeName : Object → String
  | node _ => "ComputationNode"
  | network _ => "ComputationNetwork"
  | action _ => "PrintAction"

end Object

/-- Path segments are separated by this. -/
def pathSeparator : Char := '.'

/-- The path of a part `id` of what is at `path`. Empty paths and empty ids leave no separator. -/
def joinPath (path id : String) : String :=
  if path.isEmpty then id
  else if id.isEmpty then path
  else path ++ pathSeparator.toString ++ id

/-- Elements with an index range of their own, starting at `first`. -/
structure LazyArray where
  first : Int64 := 0
  cells : Array CellId := #[]
deriving DecidableEq, Inhabited

namespace Index

/-- The difference, unless it does not fit. -/
def checkedSub? (x y : Int64) : Option Int64 :=
  let exact := x.toInt - y.toInt
  if Int64.minValue.toInt ≤ exact ∧ exact ≤ Int64.maxValue.toInt then some (x - y) else none

/-- The sum, or the nearest bound of the range where it does not fit. -/
def saturatingAdd (x y : Int64) : Int64 :=
  Int64.ofIntClamp (x.toInt + y.toInt)

/-- The difference, or the nearest bound of the range where it does not fit. -/
def saturatingSub (x y : Int64) : Int64 :=
  Int64.ofIntClamp (x.toInt - y.toInt)

end Index

namespace LazyArray

def size (a : LazyArray) : Nat :=
  a.cells.size

def isEmpty (a : LazyArray) : Bool :=
  a.cells.isEmpty

/-- The last index, which is one before the first for an empty array. -/
def last (a : LazyArray) : Int64 :=
  Index.saturatingSub (Index.saturatingAdd a.first (Int64.ofIntClamp a.size)) 1

/-- The cell at an index, if the index is in range. -/
def cellAt? (a : LazyArray) (index : Int64) : Option CellId :=
  match Index.checkedSub? index a.first with
  | some offset => if 0 ≤ offset then a.cells[offset.toInt.toNat]? else none
  | none => none

end LazyArray

/-- A function with the record it was defined in. Named parameters have a default each, which is a
    cell that all calls share. -/
structure Function where
  params : List String
  named : List (String × CellId)
  body : Expr
  scope : RecordId
  name : String

namespace Function

/-- A function is called after the last segment of the path it was defined at. -/
def nameAt (path : String) : String :=
  let last := (path.toList.reverse.takeWhile (· != pathSeparator)).reverse
  if last.isEmpty then "lambda" else String.ofList last

def arity (f : Function) : Nat :=
  f.params.length

end Function

inductive Payload where
  | number (value : Float)
  | text (value : String)
  | truth (value : Bool)
  | record (id : RecordId)
  | array (elements : LazyArray)
  | function (f : Function)
  | object (o : Object)

/-- A payload with the place and the path it was defined at. Whatever is shared between values or
    may still change is kept in the store and only referred to. -/
structure Value where
  payload : Payload
  location : Location
  path : String

namespace Value

def number (x : Float) (location : Location) (path : String) : Value :=
  ⟨.number x, location, path⟩

def text (s : String) (location : Location) (path : String) : Value :=
  ⟨.text s, location, path⟩

def truth (b : Bool) (location : Location) (path : String) : Value :=
  ⟨.truth b, location, path⟩

def record (id : RecordId) (location : Location) (path : String) : Value :=
  ⟨.record id, location, path⟩

def array (a : LazyArray) (location : Location) (path : String) : Value :=
  ⟨.array a, location, path⟩

def object (o : Object) (location : Location) (path : String) : Value :=
  ⟨.object o, location, path⟩

/-- The type as messages call it. -/
def typeName (v : Value) : String :=
  match v.payload with
  | .number _ => "number"
  | .text _ => "string"
  | .truth _ => "boolean"
  | .record _ => "record"
  | .array _ => "array"
  | .function _ => "function"
  | .object o => o.typeName

/-- The value is of another type than the one it has to be of. -/
def mismatch (v : Value) (expected : String) : EvalError :=
  .typeMismatch expected v.typeName v.location

def asNumber (v : Value) : Except EvalError Float :=
  match v.payload with
  | .number x => .ok x
  | _ => .error (v.mismatch "number")

/-- The value as an index or a count. -/
def asIndex (v : Value) : Except EvalError Int64 := do
  let x ← v.asNumber
  match Number.toIndex? x with
  | some i => return i
  | none => throw (.typeMismatch "integer" (Number.text x) v.location)

def asTruth (v : Value) : Except EvalError Bool :=
  match v.payload with
  | .truth b => .ok b
  | _ => .error (v.mismatch "boolean")

def asText (v : Value) : Except EvalError String :=
  match v.payload with
  | .text s => .ok s
  | _ => .error (v.mismatch "string")

def asRecord (v : Value) : Except EvalError RecordId :=
  match v.payload with
  | .record id => .ok id
  | _ => .error (v.mismatch "record")

def asArray (v : Value) : Except EvalError LazyArray :=
  match v.payload with
  | .array a => .ok a
  | _ => .error (v.mismatch "array")

def asFunction (v : Value) : Except EvalError Function :=
  match v.payload with
  | .function f => .ok f
  | _ => .error (v.mismatch "function")

def asObject (v : Value) : Except EvalError Object :=
  match v.payload with
  | .object o => .ok o
  | _ => .error (v.mismatch "object")

def asNode (v : Value) : Except EvalError NodeId :=
  match v.payload with
  | .object (.node id) => .ok id
  | _ => .error (v.mismatch "ComputationNode")

end Value

end NetDesc
