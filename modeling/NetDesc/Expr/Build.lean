import NetDesc.Expr

namespace NetDesc

namespace Expr

/-- An expression that was built rather than read, so it has no location; `Expr.located` gives it
    one. -/
def ofKind (kind : ExprKind) : Expr :=
  .mk kind .unknown

def ofNumber (x : Float) : Expr :=
  ofKind (.number x)

def ofText (s : String) : Expr :=
  ofKind (.text s)

def ofTruth (b : Bool) : Expr :=
  ofKind (.truth b)

def ofName (name : String) : Expr :=
  ofKind (.var name)

def ofMembers (members : List Binding) : Expr :=
  ofKind (.record members)

def ofItems (items : List Expr) : Expr :=
  ofKind (.array items)

def dot (base : Expr) (name : String) : Expr :=
  ofKind (.member base { name })

def instantiate (typeName : String) (fields : Expr) : Expr :=
  ofKind (.new { name := typeName } fields)

def ifThenElse (condition thenBranch elseBranch : Expr) : Expr :=
  ofKind (.conditional condition thenBranch elseBranch)

def function (params : List String) (defaults : List Binding) (body : Expr) : Expr :=
  ofKind (.lambda (.mk (params.map fun name => { name }) defaults) body)

def call (func : Expr) (args : List Expr) (named : List Binding) : Expr :=
  ofKind (.apply func (.mk args named .unknown))

def arrayOf (first last init : Expr) : Expr :=
  ofKind (.comprehension first last init)

def elementAt (base index : Expr) : Expr :=
  ofKind (.index base index)

def applyUnary (op : UnaryOp) (operand : Expr) : Expr :=
  ofKind (.unary op operand)

def applyBinary (op : BinaryOp) (left right : Expr) : Expr :=
  ofKind (.binary op left right)

end Expr

/-- A binding without a location. -/
def Binding.ofName (name : String) (value : Expr) : Binding :=
  .mk { name } value

mutual

/-- The tree with every location unknown. Two trees differ in locations only iff these are the
    same. -/
def Expr.unlocated : Expr → Expr
  | .mk (.number x) _ => .ofNumber x
  | .mk (.text s) _ => .ofText s
  | .mk (.truth b) _ => .ofTruth b
  | .mk (.new typeName fields) _ => .instantiate typeName.name fields.unlocated
  | .mk (.conditional c t e) _ => .ifThenElse c.unlocated t.unlocated e.unlocated
  | .mk (.lambda (.mk positional named) body) _ =>
    .function (positional.map (·.name)) (unlocatedBindings named) body.unlocated
  | .mk (.apply func (.mk positional named _)) _ =>
    .call func.unlocated (unlocatedItems positional) (unlocatedBindings named)
  | .mk (.record members) _ => .ofMembers (unlocatedBindings members)
  | .mk (.var name) _ => .ofName name
  | .mk (.member base member) _ => base.unlocated.dot member.name
  | .mk (.array items) _ => .ofItems (unlocatedItems items)
  | .mk (.comprehension first last init) _ =>
    .arrayOf first.unlocated last.unlocated init.unlocated
  | .mk (.index base index) _ => .elementAt base.unlocated index.unlocated
  | .mk (.unary op operand) _ => .applyUnary op operand.unlocated
  | .mk (.binary op left right) _ => .applyBinary op left.unlocated right.unlocated

/-- The items of an array or the arguments of a call with every location unknown. -/
def unlocatedItems : List Expr → List Expr
  | [] => []
  | item :: rest => item.unlocated :: unlocatedItems rest

/-- Bindings with every location unknown. -/
def unlocatedBindings : List Binding → List Binding
  | [] => []
  | .mk name value :: rest => .ofName name.name value.unlocated :: unlocatedBindings rest

end

end NetDesc
