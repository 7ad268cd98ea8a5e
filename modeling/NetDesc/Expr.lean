import NetDesc.Location

namespace NetDesc

inductive UnaryOp where
  | plus
  | neg
  | not
deriving DecidableEq, Inhabited

namespace UnaryOp

def all : List UnaryOp := [plus, neg, not]

def name : UnaryOp → String
  | plus => "Plus"
  | neg => "Neg"
  | not => "Not"

def symbol : UnaryOp → String
  | plus => "+"
  | neg => "-"
  | not => "!"

def ofName? (name : String) : Option UnaryOp :=
  all.find? (·.name == name)

end UnaryOp

/-- The infix operators. `elemMul` multiplies element by element; `xor` is the exclusive or of two
    truth values. -/
inductive BinaryOp where
  | mul
  | div
  | elemMul
  | pow
  | rem
  | add
  | sub
  | eq
  | ne
  | lt
  | gt
  | le
  | ge
  | and
  | or
  | xor
deriving DecidableEq, Inhabited

namespace BinaryOp

def all : List BinaryOp :=
  [mul, div, elemMul, pow, rem, add, sub, eq, ne, lt, gt, le, ge, and, or, xor]

def name : BinaryOp → String
  | mul => "Mul"
  | div => "Div"
  | elemMul => "ElemMul"
  | pow => "Pow"
  | rem => "Rem"
  | add => "Add"
  | sub => "Sub"
  | eq => "Eq"
  | ne => "Ne"
  | lt => "Lt"
  | gt => "Gt"
  | le => "Le"
  | ge => "Ge"
  | and => "And"
  | or => "Or"
  | xor => "Xor"

def symbol : BinaryOp → String
  | mul => "*"
  | div => "/"
  | elemMul => ".*"
  | pow => "**"
  | rem => "%"
  | add => "+"
  | sub => "-"
  | eq => "=="
  | ne => "!="
  | lt => "<"
  | gt => ">"
  | le => "<="
  | ge => ">="
  | and => "&&"
  | or => "||"
  | xor => "^"

def ofName? (name : String) : Option BinaryOp :=
  all.find? (·.name == name)

def ofSymbol? (symbol : String) : Option BinaryOp :=
  all.find? (·.symbol == symbol)

def isComparison : BinaryOp → Bool
  | eq | ne | lt | gt | le | ge => true
  | _ => false

end BinaryOp

/-- A name and where it stands. -/
structure Ident where
  name : String
  location : Location := .unknown
deriving DecidableEq, Inhabited

mutual

/-- An expression and the place at which a reader has found it. Trees are plain data and are
    never changed by evaluation. -/
inductive Expr where
  | mk (kind : ExprKind) (location : Location)

/-- The forms of expressions. -/
inductive ExprKind where
  | number (value : Float)
  | text (value : String)
  | truth (value : Bool)
  /-- Instantiates a runtime type from the record that `fields` evaluates to. -/
  | new (typeName : Ident) (fields : Expr)
  | conditional (condition thenBranch elseBranch : Expr)
  | lambda (params : ParamList) (body : Expr)
  | apply (func : Expr) (args : ArgList)
  /-- Members see one another, whatever their order. -/
  | record (members : List Binding)
  | var (name : String)
  | member (base : Expr) (member : Ident)
  /-- A literal; the elements of items that are arrays themselves are spliced in. -/
  | array (items : List Expr)
  /-- The array of what the function `init` gives for each index from `first` to `last`. -/
  | comprehension (first last init : Expr)
  | index (base index : Expr)
  | unary (op : UnaryOp) (operand : Expr)
  | binary (op : BinaryOp) (left right : Expr)

/-- A named expression: a record member, a named argument or the default of a named parameter. -/
inductive Binding where
  | mk (name : Ident) (value : Expr)

/-- The parameters of a function. Named ones have defaults. -/
inductive ParamList where
  | mk (positional : List Ident) (named : List Binding)

/-- The arguments of a call. -/
inductive ArgList where
  | mk (positional : List Expr) (named : List Binding) (location : Location)

end

instance : Inhabited Expr := ⟨.mk (.truth false) .unknown⟩
instance : Inhabited ExprKind := ⟨.truth false⟩
instance : Inhabited Binding := ⟨.mk default default⟩
instance : Inhabited ParamList := ⟨.mk [] []⟩
instance : Inhabited ArgList := ⟨.mk [] [] .unknown⟩

namespace Expr

def kind : Expr → ExprKind
  | .mk kind _ => kind

def location : Expr → Location
  | .mk _ location => location

/-- The same expression at another place. -/
def located (e : Expr) (location : Location) : Expr :=
  .mk e.kind location

end Expr

namespace Binding

def name : Binding → Ident
  | .mk name _ => name

def value : Binding → Expr
  | .mk _ value => value

end Binding

namespace ParamList

def positional : ParamList → List Ident
  | .mk positional _ => positional

def named : ParamList → List Binding
  | .mk _ named => named

end ParamList

namespace ArgList

def positional : ArgList → List Expr
  | .mk positional _ _ => positional

def named : ArgList → List Binding
  | .mk _ named _ => named

def location : ArgList → Location
  | .mk _ _ location => location

end ArgList

end NetDesc
