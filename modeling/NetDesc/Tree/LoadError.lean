import NetDesc.Json.Token
import NetDesc.Text.Quoted

namespace NetDesc

namespace Tree

/-- What stands in a place where something else was expected. -/
inductive Found where
  | null
  | truth (value : Bool)
  | whole (value : Int)
  | real (value : Float)
  | text (value : String)
  | sequence
  | map
  /-- The bare name of an alternative that has contents. -/
  | bareName
deriving DecidableEq

namespace Found

def describe : Found → String
  | null => "null"
  | truth value => s!"boolean `{value}`"
  | whole value => s!"integer `{value}`"
  | real value => s!"floating point `{Json.realText value}`"
  | text value => s!"string {Text.quoted value}"
  | sequence => "sequence"
  | map => "map"
  | bareName => "unit variant"

end Found

/-- How a document fails to describe a tree: what was found, and what was expected there. -/
inductive Mismatch where
  | wrongType (found : Found) (expected : String)
  | wrongValue (found : Found) (expected : String)
  | wrongLength (length : Nat) (expected : String)
  | missingField (name : String)
  | duplicateField (name : String)
  | unknownVariant (name : String) (known : List String)
deriving DecidableEq

namespace Mismatch

/-- A name as messages quote it. -/
def tick (name : String) : String :=
  s!"`{name}`"

def message : Mismatch → String
  | wrongType found expected => s!"invalid type: {found.describe}, expected {expected}"
  | wrongValue found expected => s!"invalid value: {found.describe}, expected {expected}"
  | wrongLength length expected => s!"invalid length {length}, expected {expected}"
  | missingField name => s!"missing field {tick name}"
  | duplicateField name => s!"duplicate field {tick name}"
  | unknownVariant name known =>
    s!"unknown variant {tick name}, expected one of " ++ ", ".intercalate (known.map tick)

end Mismatch

inductive LoadError where
  | text (fault : Json.Fault)
  | data (mismatch : Mismatch)
deriving DecidableEq

namespace LoadError

def malformed : LoadError := .text .malformed

def ended : LoadError := .text .ended

/-- What is wrong, in words. -/
def message : LoadError → String
  | .text .malformed => "invalid syntax"
  | .text .ended => "unexpected end of text"
  | .data mismatch => mismatch.message

end LoadError

end Tree

end NetDesc
