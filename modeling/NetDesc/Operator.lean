import NetDesc.Binary64
import NetDesc.Registry

namespace NetDesc

/-- Where an operator is applied. -/
structure Site where
  op : BinaryOp
  location : Location
  path : String

namespace Site

/-- The operator is not defined for operands of these types. -/
def invalidOperands (site : Site) (left right : Value) : EvalError where
  cause := .invalidOperandTypes site.op.symbol left.typeName right.typeName
  location := site.location

def numberValue (site : Site) (x : Float) : Value :=
  .number x site.location site.path

def textValue (site : Site) (s : String) : Value :=
  .text s site.location site.path

def truthValue (site : Site) (b : Bool) : Value :=
  .truth b site.location site.path

end Site

namespace Operator

/-- How two numbers compare, if they do. -/
def compareNumbers? (x y : Float) : Option Ordering :=
  if x == y then some .eq
  else if x < y then some .lt
  else if y < x then some .gt
  else none

/-- Strings compare character by character. -/
def compareTexts (s t : String) : Ordering :=
  if s = t then .eq else if s < t then .lt else .gt

/-- What a comparison says of an ordering. Operands that do not compare are different and nothing
    else. Other operators say nothing. -/
def comparison? (op : BinaryOp) (ordering : Option Ordering) : Option Bool :=
  match op with
  | .eq => some (ordering == some .eq)
  | .ne => some (ordering != some .eq)
  | .lt => some (ordering == some .lt)
  | .gt => some (ordering == some .gt)
  | .le => some (ordering == some .lt || ordering == some .eq)
  | .ge => some (ordering == some .gt || ordering == some .eq)
  | _ => none

/-- The arithmetic operators. -/
def arithmetic? (op : BinaryOp) (x y : Float) : Option Float :=
  match op with
  | .add => some (x + y)
  | .sub => some (x - y)
  | .mul => some (x * y)
  | .div => some (x / y)
  | .rem => some (Binary64.remainder x y)
  | .pow => some (x.pow y)
  | _ => none

/-- The logical operators. -/
def logical? (op : BinaryOp) (a b : Bool) : Option Bool :=
  match op with
  | .and => some (a && b)
  | .or => some (a || b)
  | .xor => some (a ^^ b)
  | _ => none

def onNumbers? (site : Site) (x y : Float) : Option Value :=
  (arithmetic? site.op x y).map site.numberValue <|>
    (comparison? site.op (compareNumbers? x y)).map site.truthValue

def onTexts? (site : Site) (s t : String) : Option Value :=
  if site.op = .add then
    some (site.textValue (s ++ t))
  else
    (comparison? site.op (some (compareTexts s t))).map site.truthValue

def onTruths? (site : Site) (a b : Bool) : Option Value :=
  (logical? site.op a b <|> comparison? site.op (some (compare a b))).map site.truthValue

/-- The class of the node that an operator on two objects makes. Such operators compute nothing:
    the sum of two nodes is a node of its own. -/
def graphClass? : BinaryOp → Option String
  | .add => some "PlusNode"
  | .sub => some "MinusNode"
  | .mul => some "TimesNode"
  | .elemMul => some "DiagTimesNode"
  | _ => none

/-- The class of the node that an operator on a number and an object makes. -/
def scaleClass? : BinaryOp → Option String
  | .mul => some "ScaleNode"
  | _ => none

def isNumber (v : Value) : Bool :=
  match v.payload with
  | .number _ => true
  | _ => false

/-- The fields of a node that an operator makes. They stand in no other record, so the type finds
    all it needs right here. -/
def graphFields (site : Site) (className : String) (left right : Value) : Program RecordId := do
  let fields ← Program.newRecord none
  Program.addValue fields "class" (site.textValue className)
  let first ← Program.newCell (.ready left)
  let second ← Program.newCell (.ready right)
  let inputs : LazyArray := { cells := #[first, second] }
  Program.addValue fields "inputs" (.array inputs left.location site.path)
  return fields

/-- Instantiates the graph node type. A number is moved to the left of an object. -/
def onObjects (r : Registry) (site : Site) (left right : Value) : Program Value := do
  let (left, right) := if isNumber right then (right, left) else (left, right)
  let class? := if isNumber left then scaleClass? site.op else graphClass? site.op
  match class? with
  | some className =>
    let fields ← graphFields site className left right
    r.construct r.graphNodeType fields site.location site.path
  | none => .raise (site.invalidOperands left right)

/-- A result, or an error if the operator is not defined after all. -/
def orInvalid (site : Site) (left right : Value) : Option Value → Program Value
  | some v => return v
  | none => .raise (site.invalidOperands left right)

/-- Applies an operator to operands that form a pair which it accepts. Every pair is handled in one
    way, and whatever handles it takes the operands for what it expects them to be. -/
def handle (r : Registry) (site : Site) (left right : Value) : OperandPair → Program Value
  | .numbers => do
    let x ← left.asNumber
    let y ← right.asNumber
    orInvalid site left right (onNumbers? site x y)
  | .texts => do
    let s ← left.asText
    let t ← right.asText
    orInvalid site left right (onTexts? site s t)
  | .truths => do
    let a ← left.asTruth
    let b ← right.asTruth
    orInvalid site left right (onTruths? site a b)
  | .objects | .numberObject | .objectNumber => onObjects r site left right

/-- Applies an operator to two values. -/
def apply (r : Registry) (site : Site) (left right : Value) : Program Value :=
  match OperandPair.of? left right with
  | some pair =>
    if pair ∈ r.operators.accepted site.op then handle r site left right pair
    else .raise (site.invalidOperands left right)
  | none => .raise (site.invalidOperands left right)

end Operator

end NetDesc
