import NetDesc.Location

namespace NetDesc

/-- The kinds of failure that are reported. Codes below 300 concern the input, the others
    evaluation. -/
inductive ErrorCode where
  | unreadableInput
  | malformedTree
  | unknownIdentifier
  | typeMismatch
  | invalidOperandTypes
  | unknownType
  | arityMismatch
  | cyclicEvaluation
  | userRaised
  | indexOutOfBounds
  | invalidArgument
  | recursionLimit
deriving DecidableEq, Inhabited

namespace ErrorCode

def all : List ErrorCode :=
  [unreadableInput, malformedTree, unknownIdentifier, typeMismatch, invalidOperandTypes,
    unknownType, arityMismatch, cyclicEvaluation, userRaised, indexOutOfBounds, invalidArgument,
    recursionLimit]

def name : ErrorCode → String
  | unreadableInput => "UnreadableInput"
  | malformedTree => "MalformedTree"
  | unknownIdentifier => "UnknownIdentifier"
  | typeMismatch => "TypeMismatch"
  | invalidOperandTypes => "InvalidOperandTypes"
  | unknownType => "UnknownType"
  | arityMismatch => "ArityMismatch"
  | cyclicEvaluation => "CyclicEvaluation"
  | userRaised => "UserRaised"
  | indexOutOfBounds => "IndexOutOfBounds"
  | invalidArgument => "InvalidArgument"
  | recursionLimit => "RecursionLimit"

def ofName? (name : String) : Option ErrorCode :=
  all.find? (·.name == name)

/-- The code as it stands in reports. -/
def text : ErrorCode → String
  | unreadableInput => "E0100"
  | malformedTree => "E0101"
  | unknownIdentifier => "E0300"
  | typeMismatch => "E0301"
  | invalidOperandTypes => "E0302"
  | unknownType => "E0303"
  | arityMismatch => "E0304"
  | cyclicEvaluation => "E0305"
  | userRaised => "E0306"
  | indexOutOfBounds => "E0307"
  | invalidArgument => "E0308"
  | recursionLimit => "E0309"

def description : ErrorCode → String
  | unreadableInput => "expression tree could not be read"
  | malformedTree => "expression tree is malformed"
  | unknownIdentifier => "cannot find identifier in this scope"
  | typeMismatch => "value has the wrong type"
  | invalidOperandTypes => "operator cannot be applied to these operand types"
  | unknownType => "unknown runtime type in `new` expression"
  | arityMismatch => "wrong number of positional arguments"
  | cyclicEvaluation => "value depends on itself"
  | userRaised => "configuration raised an error"
  | indexOutOfBounds => "array index out of bounds"
  | invalidArgument => "runtime object rejected an argument"
  | recursionLimit => "evaluation nested too deeply"

/-- What to try, for the codes where there is general advice. -/
def suggestion? : ErrorCode → Option String
  | unknownIdentifier =>
    some "check the spelling or ensure the name is defined in an enclosing record"
  | unknownType => some "only registered runtime types can be instantiated with `new`"
  | arityMismatch => some "check the function definition for the expected parameters"
  | cyclicEvaluation =>
    some "break the cycle with a delayed runtime object, or restructure the definitions"
  | _ => none

end ErrorCode

inductive Severity where
  | error
  | warning
  | note
deriving DecidableEq, Inhabited

namespace Severity

def text : Severity → String
  | error => "error"
  | warning => "warning"
  | note => "note"

end Severity

namespace Diagnostic

/-- Which part of the work a diagnostic comes from: reading the tree, evaluating it, or a runtime
    object that was handed something it cannot use. -/
inductive Origin where
  | input
  | evaluation
  | runtime
deriving DecidableEq, Inhabited

/-- A remark on one location. Diagnostics are built by adding labels, notes and help to an error
    or a warning, one at a time. -/
structure Label where
  location : Location
  message : String
deriving DecidableEq, Inhabited

end Diagnostic

structure Diagnostic where
  severity : Severity := .error
  origin : Diagnostic.Origin
  code : Option ErrorCode := none
  message : String
  location : Location
  labels : Array Diagnostic.Label := #[]
  notes : Array String := #[]
  help : Option String := none
deriving DecidableEq

namespace Diagnostic

def error (origin : Origin) (location : Location) (message : String) : Diagnostic :=
  { origin, message, location }

def warning (origin : Origin) (location : Location) (message : String) : Diagnostic :=
  { severity := .warning, origin, message, location }

/-- Sets the code. Its suggestion becomes the help, unless help was given before. -/
def withCode (d : Diagnostic) (code : ErrorCode) : Diagnostic :=
  { d with code := some code, help := d.help <|> code.suggestion? }

def withLabel (d : Diagnostic) (location : Location) (message : String) : Diagnostic :=
  { d with labels := d.labels.push { location, message } }

def withNote (d : Diagnostic) (note : String) : Diagnostic :=
  { d with notes := d.notes.push note }

/-- Sets the help, also where a code has suggested one. -/
def withHelp (d : Diagnostic) (help : String) : Diagnostic :=
  { d with help := some help }

/-- The first line: severity, code and message. -/
def headline (d : Diagnostic) : String :=
  match d.code with
  | some code => s!"{d.severity.text}[{code.text}]: {d.message}"
  | none => s!"{d.severity.text}: {d.message}"

/-- The plain form. The location's line is left out when the location is unknown. -/
def text (d : Diagnostic) : String :=
  let place := if d.location.isUnknown then [] else [s!"  --> {d.location.text}"]
  let labels := d.labels.toList.map fun l => s!"  {l.location.text} {l.message}"
  let notes := d.notes.toList.map fun note => s!"  = note: {note}"
  let help := d.help.toList.map fun help => s!"  = help: {help}"
  "\n".intercalate (d.headline :: place ++ labels ++ notes ++ help)

end Diagnostic

end NetDesc
