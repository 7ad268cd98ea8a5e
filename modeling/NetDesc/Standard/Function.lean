import NetDesc.Members
import NetDesc.Registry

namespace NetDesc

namespace TextFunction

/-- Where a substring begins. Negative positions count from the end; positions outside the string
    are moved to its nearest end. -/
def substringStart (length pos : Int64) : Int64 :=
  if pos < 0 then max (length + pos) 0 else min pos length

/-- How many characters a substring has. Negative counts go to the end of the string. -/
def substringSize (length start count : Int64) : Int64 :=
  if count < 0 then length - start else min count (length - start)

/-- Up to `count` characters from position `pos` on. Strings are counted and cut in characters. -/
def substring (s : String) (pos count : Int64) : String :=
  let length := Int64.ofNat s.length
  let start := substringStart length pos
  let size := substringSize length start count
  String.ofList ((s.toList.drop start.toInt.toNat).take size.toInt.toNat)

/-- Replaces occurrences from left to right. `skip` characters belong to an occurrence that has
    been replaced already. -/
def replaceFrom (what replacement : List Char) : (skip : Nat) → List Char → List Char
  | _, [] => []
  | skip + 1, _ :: rest => replaceFrom what replacement skip rest
  | 0, c :: rest =>
    if what.isPrefixOf (c :: rest) then
      replacement ++ replaceFrom what replacement (what.length - 1) rest
    else
      c :: replaceFrom what replacement 0 rest

/-- The string with every occurrence of `what` replaced. The empty string occurs nowhere. -/
def replace (s what replacement : String) : String :=
  if what.isEmpty then s
  else String.ofList (replaceFrom what.toList replacement.toList 0 s.toList)

/-- The character with this code, if there is one. -/
def character? (code : Int64) : Option Char :=
  let n := code.toInt.toNat
  if 0 ≤ code ∧ n.isValidChar then some (Char.ofNat n) else none

/-- The string that the function selected by `what` gives. -/
def result (what : String) (selector arg : Value) (fields : RecordId) : Program String := do
  match what with
  | "Format" =>
    let how ← Program.field fields "how"
    let how ← how.asText
    let spec ← FormatSpec.parse how arg.location
    Program.render spec arg
  | "Chr" =>
    let code ← arg.asIndex
    match character? code with
    | some c => return c.toString
    | none => .raise (.invalidArgument s!"{code} is not a character code" arg.location)
  | "Substr" =>
    let pos ← Program.field fields "pos"
    let pos ← pos.asIndex
    let count ← Program.field fields "chars"
    let count ← count.asIndex
    let s ← arg.asText
    return substring s pos count
  | "Replace" =>
    let what ← Program.field fields "replacewhat"
    let replacement ← Program.field fields "withwhat"
    let s ← arg.asText
    let what ← what.asText
    let replacement ← replacement.asText
    return replace s what replacement
  | _ =>
    let message := s!"unknown 'what' value to StringFunction: {what}"
    .raise (.invalidArgument message selector.location)

def construct (fields : RecordId) (location : Location) (path : String) : Program Value := do
  let selector ← Program.field fields "what"
  let what ← selector.asText
  let arg ← Program.field fields "arg"
  let s ← result what selector arg fields
  return .text s location path

def runtimeType : RuntimeType where
  construct := construct

end TextFunction

namespace NumericFunction

/-- How many characters a string has, or how many elements an array. -/
def length (arg : Value) : Except EvalError Nat :=
  match arg.payload with
  | .text s => .ok s.length
  | .array a => .ok a.size
  | _ => .error (arg.mismatch "string or array")

/-- The number that the function selected by `what` gives. -/
def result (what : String) (selector arg : Value) : Except EvalError Float := do
  match what with
  | "Floor" =>
    let x ← arg.asNumber
    return x.floor
  | "Length" =>
    let n ← length arg
    return Float.ofNat n
  | _ =>
    let message := s!"unknown 'what' value to NumericFunction: {what}"
    throw (.invalidArgument message selector.location)

def construct (fields : RecordId) (location : Location) (path : String) : Program Value := do
  let selector ← Program.field fields "what"
  let what ← selector.asText
  let arg ← Program.field fields "arg"
  let x ← result what selector arg
  return .number x location path

def runtimeType : RuntimeType where
  construct := construct

end NumericFunction

end NetDesc
