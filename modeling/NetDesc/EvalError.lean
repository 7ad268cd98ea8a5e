import NetDesc.Diagnostic

namespace NetDesc

/-- What went wrong. -/
inductive Cause where
  | unknownIdentifier (name : String)
  | typeMismatch (expected found : String)
  | invalidOperandTypes (op left right : String)
  | unknownType (name : String)
  | arityMismatch (expected given : Nat)
  | cyclicEvaluation (path : String)
  | userRaised (message : String)
  | indexOutOfBounds (index first last : Int64)
  | invalidArgument (message : String)
  | recursionLimit (limit : Nat)
deriving DecidableEq

namespace Cause

def message : Cause → String
  | unknownIdentifier name => s!"unknown identifier {name}"
  | typeMismatch expected found => s!"expected expression of type {expected}, found {found}"
  | invalidOperandTypes op left right =>
    s!"operator {op} cannot be applied to operands of type {left} and {right}"
  | unknownType name => s!"unknown runtime type {name}"
  | arityMismatch expected given =>
    s!"function expects {expected} positional arguments, but {given} were given"
  | cyclicEvaluation path => s!"cyclic reference: {path} depends on its own value"
  | userRaised message => message
  | indexOutOfBounds index first last => s!"index {index} out of bounds {first}..{last}"
  | invalidArgument message => message
  | recursionLimit limit => s!"evaluation nested deeper than {limit} levels"

def code : Cause → ErrorCode
  | unknownIdentifier _ => .unknownIdentifier
  | typeMismatch .. => .typeMismatch
  | invalidOperandTypes .. => .invalidOperandTypes
  | unknownType _ => .unknownType
  | arityMismatch .. => .arityMismatch
  | cyclicEvaluation _ => .cyclicEvaluation
  | userRaised _ => .userRaised
  | indexOutOfBounds .. => .indexOutOfBounds
  | invalidArgument _ => .invalidArgument
  | recursionLimit _ => .recursionLimit

/-- Errors that a configuration raises itself and arguments that a runtime object rejects come from
    runtime objects, the others from evaluation. -/
def origin : Cause → Diagnostic.Origin
  | userRaised _ | invalidArgument _ => .runtime
  | _ => .evaluation

end Cause

/-- A cause, where it was raised, which may be unknown, and the locations it passed after that,
    innermost first: every enclosing expression adds its own on the way out. -/
structure EvalError where
  cause : Cause
  location : Location
  trail : Array Location := #[]
deriving DecidableEq

namespace EvalError

/-- A name that is not defined where it is used. -/
def unknownIdentifier (name : String) (location : Location) : EvalError :=
  { cause := .unknownIdentifier name, location }

def typeMismatch (expected found : String) (location : Location) : EvalError :=
  { cause := .typeMismatch expected found, location }

def invalidArgument (message : String) (location : Location) : EvalError :=
  { cause := .invalidArgument message, location }

/-- Where the error was last seen. -/
def lastLocation (e : EvalError) : Location :=
  e.trail.back?.getD e.location

/-- The error has passed through an expression at this location. An error that was raised without
    a location adopts the first one it meets. Unknown locations and immediate repeats leave no
    trace. -/
def through (e : EvalError) (location : Location) : EvalError :=
  if location.isUnknown then
    e
  else if e.location.isUnknown then
    { e with location }
  else if e.lastLocation = location then
    e
  else
    { e with trail := e.trail.push location }

/-- The known locations, innermost first. -/
def locations (e : EvalError) : List Location :=
  (e.location :: e.trail.toList).filter (!·.isUnknown)

def code (e : EvalError) : ErrorCode :=
  e.cause.code

def message (e : EvalError) : String :=
  e.cause.message

/-- The error as a diagnostic with one label for each location of the trail. -/
def toDiagnostic (e : EvalError) : Diagnostic :=
  let plain := (Diagnostic.error e.cause.origin e.location e.message).withCode e.code
  e.trail.foldl (·.withLabel · "while evaluating this") plain

end EvalError

end NetDesc
