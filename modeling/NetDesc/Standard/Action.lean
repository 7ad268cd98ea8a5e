import NetDesc.Members
import NetDesc.Registry

namespace NetDesc

namespace PrintAction

/-- The text that is printed for a value: strings as they are, anything else formatted. -/
def textOf (v : Value) : Program String :=
  match v.payload with
  | .text s => return s
  | _ => Program.render {} v

/-- Prints the field `what` once. -/
def construct (fields : RecordId) (location : Location) (path : String) : Program Value := do
  let what ← Program.field fields "what"
  let text ← textOf what
  Program.print text
  let id ← Program.newAction { text }
  return .object (.action id) location path

def runtimeType : RuntimeType where
  construct := construct

end PrintAction

namespace FailAction

/-- Fails with the message in the field `what`. The error has no location of its own, so it is
    reported where the action is instantiated. -/
def construct (fields : RecordId) (_ : Location) (_ : String) : Program Value := do
  let what ← Program.field fields "what"
  let message ← what.asText
  .raise { cause := .userRaised message, location := .unknown }

def runtimeType : RuntimeType where
  construct := construct

end FailAction

end NetDesc
