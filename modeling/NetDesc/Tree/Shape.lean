import NetDesc.Expr

namespace NetDesc

namespace Tree

/-- The groups of named fields. The later ones are the contents of the alternatives of an
    expression that have more than one part. -/
inductive Group where
  | span
  | location
  | ident
  | binding
  | paramList
  | argList
  | expr
  | new
  | conditional
  | lambda
  | apply
  | member
  | comprehension
  | index
  | unary
  | binary
deriving DecidableEq, Inhabited

/-- The choices between named alternatives. -/
inductive Choice where
  | kind
  | unaryOp
  | binaryOp
deriving DecidableEq, Inhabited

/-- What can stand at one place of a document: a plain value, a list, a group of named fields or
    a choice between named alternatives. -/
inductive Shape where
  | number
  | text
  | flag
  | word
  | list (item : Shape)
  | group (g : Group)
  | choice (c : Choice)
deriving DecidableEq, Inhabited

/-- What was read at one place of a document. -/
inductive Part where
  | number (value : Float)
  | text (value : String)
  | flag (value : Bool)
  | word (value : UInt32)
  | list (items : List Part)
  | span (value : Span)
  | location (value : Location)
  | ident (value : Ident)
  | binding (value : Binding)
  | paramList (value : ParamList)
  | argList (value : ArgList)
  | expr (value : Expr)
  | kind (value : ExprKind)
  | unaryOp (value : UnaryOp)
  | binaryOp (value : BinaryOp)
  /-- An alternative without contents. -/
  | nothing

namespace Part

def ident? : Part → Option Ident
  | .ident value => some value
  | _ => none

def binding? : Part → Option Binding
  | .binding value => some value
  | _ => none

def expr? : Part → Option Expr
  | .expr value => some value
  | _ => none

end Part

/-- A named field. One with a default may be left out. -/
structure Field where
  name : String
  shape : Shape
  default? : Option Part := none

namespace Field

/-- Where something stands; unknown unless it is given. -/
def location : Field :=
  ⟨"location", .group .location, some (.location .unknown)⟩

def listOf (name : String) (item : Shape) : Field :=
  ⟨name, .list item, some (.list [])⟩

def expr (name : String) : Field :=
  ⟨name, .group .expr, none⟩

end Field

namespace Group

def fields : Group → List Field
  | span => [⟨"start", .word, none⟩, ⟨"end", .word, none⟩]
  | location =>
    [⟨"span", .group .span, some (.span .none)⟩, ⟨"line", .word, none⟩, ⟨"column", .word, none⟩]
  | ident => [⟨"name", .text, none⟩, .location]
  | binding => [⟨"name", .group .ident, none⟩, .expr "value"]
  | paramList => [.listOf "positional" (.group .ident), .listOf "named" (.group .binding)]
  | argList =>
    [.listOf "positional" (.group .expr), .listOf "named" (.group .binding), .location]
  | expr => [⟨"kind", .choice .kind, none⟩, .location]
  | new => [⟨"type_name", .group .ident, none⟩, .expr "fields"]
  | conditional => [.expr "condition", .expr "then_branch", .expr "else_branch"]
  | lambda => [⟨"params", .group .paramList, none⟩, .expr "body"]
  | apply => [.expr "func", ⟨"args", .group .argList, none⟩]
  | member => [.expr "base", ⟨"member", .group .ident, none⟩]
  | comprehension => [.expr "first", .expr "last", .expr "init"]
  | index => [.expr "base", .expr "index"]
  | unary => [⟨"op", .choice .unaryOp, none⟩, .expr "operand"]
  | binary => [⟨"op", .choice .binaryOp, none⟩, .expr "left", .expr "right"]

/-- What messages call the group. -/
def title : Group → String
  | span => "struct Span"
  | location => "struct Location"
  | ident => "struct Ident"
  | binding => "struct Binding"
  | paramList => "struct ParamList"
  | argList => "struct ArgList"
  | expr => "struct Expr"
  | new => "struct variant ExprKind::New"
  | conditional => "struct variant ExprKind::If"
  | lambda => "struct variant ExprKind::Lambda"
  | apply => "struct variant ExprKind::Apply"
  | member => "struct variant ExprKind::Member"
  | comprehension => "struct variant ExprKind::ArrayComprehension"
  | index => "struct variant ExprKind::Index"
  | unary => "struct variant ExprKind::Unary"
  | binary => "struct variant ExprKind::Binary"

/-- The part that a group's fields make, in the order of `fields`. -/
def assemble? : Group → List Part → Option Part
  | .span, [.word start, .word stop] => some (.span { start, stop })
  | .location, [.span s, .word line, .word column] => some (.location { span := s, line, column })
  | .ident, [.text name, .location l] => some (.ident { name, location := l })
  | .binding, [.ident name, .expr value] => some (.binding (.mk name value))
  | .paramList, [.list positional, .list named] => do
    return .paramList (.mk (← positional.mapM Part.ident?) (← named.mapM Part.binding?))
  | .argList, [.list positional, .list named, .location l] => do
    return .argList (.mk (← positional.mapM Part.expr?) (← named.mapM Part.binding?) l)
  | .expr, [.kind k, .location l] => some (.expr (.mk k l))
  | .new, [.ident typeName, .expr fields] => some (.kind (.new typeName fields))
  | .conditional, [.expr c, .expr t, .expr e] => some (.kind (.conditional c t e))
  | .lambda, [.paramList params, .expr body] => some (.kind (.lambda params body))
  | .apply, [.expr func, .argList args] => some (.kind (.apply func args))
  | .member, [.expr base, .ident name] => some (.kind (.member base name))
  | .comprehension, [.expr first, .expr last, .expr init] =>
    some (.kind (.comprehension first last init))
  | .index, [.expr base, .expr i] => some (.kind (.index base i))
  | .unary, [.unaryOp op, .expr operand] => some (.kind (.unary op operand))
  | .binary, [.binaryOp op, .expr left, .expr right] => some (.kind (.binary op left right))
  | _, _ => none

end Group

/-- What comes with the name of an alternative. -/
inductive Contents where
  | nothing
  | one (shape : Shape)
  | group (g : Group)
deriving DecidableEq, Inhabited

/-- A named alternative. -/
structure Variant where
  name : String
  contents : Contents := .nothing
deriving DecidableEq, Inhabited

namespace Choice

def variants : Choice → List Variant
  | kind =>
    [⟨"Number", .one .number⟩, ⟨"String", .one .text⟩, ⟨"Bool", .one .flag⟩,
      ⟨"New", .group .new⟩, ⟨"If", .group .conditional⟩, ⟨"Lambda", .group .lambda⟩,
      ⟨"Apply", .group .apply⟩, ⟨"Record", .one (.list (.group .binding))⟩, ⟨"Var", .one .text⟩,
      ⟨"Member", .group .member⟩, ⟨"Array", .one (.list (.group .expr))⟩,
      ⟨"ArrayComprehension", .group .comprehension⟩, ⟨"Index", .group .index⟩,
      ⟨"Unary", .group .unary⟩, ⟨"Binary", .group .binary⟩]
  | unaryOp => UnaryOp.all.map fun op => ⟨op.name, .nothing⟩
  | binaryOp => BinaryOp.all.map fun op => ⟨op.name, .nothing⟩

/-- The part that an alternative makes of its contents. -/
def assemble? : Choice → String → Part → Option Part
  | .kind, "Number", .number value => some (.kind (.number value))
  | .kind, "String", .text value => some (.kind (.text value))
  | .kind, "Bool", .flag value => some (.kind (.truth value))
  | .kind, "Var", .text name => some (.kind (.var name))
  | .kind, "Record", .list members => do return .kind (.record (← members.mapM Part.binding?))
  | .kind, "Array", .list items => do return .kind (.array (← items.mapM Part.expr?))
  | .kind, _, .kind value => some (.kind value)
  | .unaryOp, name, .nothing => (UnaryOp.ofName? name).map .unaryOp
  | .binaryOp, name, .nothing => (BinaryOp.ofName? name).map .binaryOp
  | _, _, _ => none

end Choice

end Tree

end NetDesc
