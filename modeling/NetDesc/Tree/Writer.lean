import NetDesc.Json.Document
import NetDesc.Expr

namespace NetDesc

namespace Tree

def spanDocument (s : Span) : Json :=
  .object [("start", .word s.start), ("end", .word s.stop)]

def locationDocument (l : Location) : Json :=
  .object [("span", spanDocument l.span), ("line", .word l.line), ("column", .word l.column)]

def identDocument (i : Ident) : Json :=
  .object [("name", .text i.name), ("location", locationDocument i.location)]

/-- An alternative with its contents. -/
def variant (name : String) (contents : Json) : Json :=
  .object [(name, contents)]

mutual

/-- The document of a tree. Every field is written, in the order of declaration, also where it
    has its default. -/
def document : Expr → Json
  | .mk kind location =>
    .object [("kind", kindDocument kind), ("location", locationDocument location)]

def kindDocument : ExprKind → Json
  | .number value => variant "Number" (.real value)
  | .text value => variant "String" (.text value)
  | .truth value => variant "Bool" (.truth value)
  | .new typeName fields =>
    variant "New" (.object [("type_name", identDocument typeName), ("fields", document fields)])
  | .conditional c t e =>
    variant "If" (.object
      [("condition", document c), ("then_branch", document t), ("else_branch", document e)])
  | .lambda params body =>
    variant "Lambda" (.object [("params", paramsDocument params), ("body", document body)])
  | .apply func args =>
    variant "Apply" (.object [("func", document func), ("args", argsDocument args)])
  | .record members => variant "Record" (.list (bindingDocuments members))
  | .var name => variant "Var" (.text name)
  | .member base member =>
    variant "Member" (.object [("base", document base), ("member", identDocument member)])
  | .array items => variant "Array" (.list (documents items))
  | .comprehension first last init =>
    variant "ArrayComprehension" (.object
      [("first", document first), ("last", document last), ("init", document init)])
  | .index base index =>
    variant "Index" (.object [("base", document base), ("index", document index)])
  | .unary op operand =>
    variant "Unary" (.object [("op", .text op.name), ("operand", document operand)])
  | .binary op left right =>
    variant "Binary" (.object
      [("op", .text op.name), ("left", document left), ("right", document right)])

def paramsDocument : ParamList → Json
  | .mk positional named =>
    .object [("positional", .list (positional.map identDocument)),
      ("named", .list (bindingDocuments named))]

def argsDocument : ArgList → Json
  | .mk positional named location =>
    .object [("positional", .list (documents positional)),
      ("named", .list (bindingDocuments named)), ("location", locationDocument location)]

def documents : List Expr → List Json
  | [] => []
  | e :: rest => document e :: documents rest

def bindingDocuments : List Binding → List Json
  | [] => []
  | .mk name value :: rest =>
    .object [("name", identDocument name), ("value", document value)] :: bindingDocuments rest

end

/-- The text of a tree. -/
def render (e : Expr) : String :=
  (document e).render

end Tree

end NetDesc
