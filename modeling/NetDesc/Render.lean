import NetDesc.Format.Layout
import NetDesc.Members

namespace NetDesc

namespace Render

/-- The lines of members, each computed and rendered before the next. -/
def members (spec : FormatSpec) (found : Array String) :
    List (String × Member) → Program (List String)
  | [] => return found.toList
  | (name, m) :: rest => do
    let v ← Program.force m.cell
    let text ← Program.render spec v
    members spec (found.push s!"{name} = {text}") rest

/-- The texts of elements. -/
def elements (spec : FormatSpec) (found : Array String) : List Value → Program (List String)
  | [] => return found.toList
  | v :: rest => do
    let text ← Program.render spec v
    elements spec (found.push text) rest

def lines (texts : List String) : String :=
  "\n".intercalate texts

/-- The text of a value. Records and arrays are computed all the way down and show their members
    and elements between brackets. The elements of an array are all computed before the first is
    rendered. -/
def value (spec : FormatSpec) (v : Value) : Program String := do
  match v.payload with
  | .number x => return spec.formatNumber x
  | .text s => return spec.formatText s
  | .truth b => return spec.formatTruth b
  | .record id =>
    let r ← Program.readRecord id
    let texts ← members spec #[] r.members.toList
    return Layout.nest (lines texts) '[' true ']'
  | .array a =>
    let values ← Program.forceAll a.cells.toList
    let texts ← elements spec #[] values
    return Layout.nest (lines texts) '(' false ')'
  | .function f => return s!"<function {f.name}>"
  | .object o => Program.describe o

end Render

end NetDesc
